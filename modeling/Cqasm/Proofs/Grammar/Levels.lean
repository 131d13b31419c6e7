import Cqasm.Proofs.Grammar.Expression
import Cqasm.Proofs.Recognition.Step

/-!
# Levels of nesting

An expression in which no more than some number of levels are nested is one in which no more than a
larger number are (`isExpression_mono`): the productions keep whatever is said of the expressions
inside.
-/

set_option autoImplicit false

namespace Cqasm.Grammar

/-! ## Repetition -/

section

variable {α : Type} {mark : Kind} {item item' : Phrase α} {ts : List Token} {v : α} {vs : List α}

/-- Phrases depend on the phrases inside of them monotonously. It is said here of each of them, so
that the depth of an expression may be raised. -/
theorem Behind.mono (h : Behind mark item ts v) (himp : ∀ us v, item us v → item' us v) :
    Behind mark item' ts v := by
  obtain ⟨hmark, hv⟩ := h
  exact .mk hmark (himp _ _ hv)

theorem SeparatedBy.mono (h : SeparatedBy mark item ts vs)
    (himp : ∀ us v, item us v → item' us v) : SeparatedBy mark item' ts vs := by
  obtain ⟨hv, hvs⟩ := h
  exact .mk (himp _ _ hv) (hvs.mono fun _ _ h => h.mono himp)

theorem Listed.mono (h : Listed item ts vs) (himp : ∀ us v, item us v → item' us v) :
    Listed item' ts vs := by
  cases h with
  | nil => exact .nil
  | some hvs => exact .some (hvs.mono himp)

end

/-! ## Operands and operators -/

variable {file : String} {sub sub' : Phrase Expr} {ts : List Token} {e : Expr}

theorem IsEntry.mono {entry : IndexEntry} (h : IsEntry sub ts entry)
    (himp : ∀ us v, sub us v → sub' us v) : IsEntry sub' ts entry := by
  cases h with
  | item he => exact .item (himp _ _ he)
  | range hfirst hcolon hlast => exact .range (himp _ _ hfirst) hcolon (himp _ _ hlast)

theorem IsElement.mono (h : IsElement sub ts e) (himp : ∀ us v, sub us v → sub' us v) :
    IsElement sub' ts e := by
  obtain ⟨hbefore, he, hbehind⟩ := h
  exact .mk hbefore (himp _ _ he) hbehind

/-- Expressions inside of calls, parentheses and matrices. -/
theorem IsPrimary.mono (h : IsPrimary file sub ts e) (himp : ∀ us v, sub us v → sub' us v) :
    IsPrimary file sub' ts e := by
  cases h with
  | integer hkind hvalue => exact .integer hkind hvalue
  | float hkind => exact .float hkind
  | string hkind => exact .string hkind
  | json hkind => exact .json hkind
  | name hname => exact .name hname
  | call hname hopen hargs hclose => exact .call hname hopen (hargs.mono himp) hclose
  | parenthesised hopen he hclose => exact .parenthesised hopen (himp _ _ he) hclose
  | matrix hopen hrows hclose =>
    exact .matrix hopen (SeparatedBy.mono hrows fun _ _ h => h.mono fun _ _ h => h.mono himp) hclose

/-- And inside of indices. -/
theorem IsPostfix.mono (h : IsPostfix file sub ts e) (himp : ∀ us v, sub us v → sub' us v) :
    IsPostfix file sub' ts e := by
  induction h with
  | primary he => exact .primary (he.mono himp)
  | index _ hopen hentries hclose ih =>
    exact .index ih hopen (hentries.mono fun _ _ h => h.mono himp) hclose

theorem IsUnary.mono (h : IsUnary file sub ts e) (himp : ∀ us v, sub us v → sub' us v) :
    IsUnary file sub' ts e := by
  induction h with
  | indexed he => exact .indexed (he.mono himp)
  | operator hsign _ ih => exact .operator hsign ih

theorem IsPower.mono (h : IsPower file sub ts e) (himp : ∀ us v, sub us v → sub' us v) :
    IsPower file sub' ts e := by
  induction h with
  | operand he => exact .operand (he.mono himp)
  | operator hlhs hsign _ ih => exact .operator (hlhs.mono himp) hsign ih

theorem IsChain.mono {operators : List (Kind × BinaryOperator)} (h : IsChain operators sub ts e)
    (himp : ∀ us v, sub us v → sub' us v) : IsChain operators sub' ts e := by
  induction h with
  | operand he => exact .operand (himp _ _ he)
  | operator _ hsign hrhs ih => exact .operator ih hsign (himp _ _ hrhs)

/-! ## Expressions -/

/-- By induction on the levels of operators. -/
theorem isLayered_mono (h : IsLayered file sub ts e) (himp : ∀ us v, sub us v → sub' us v) :
    IsLayered file sub' ts e := by
  unfold IsLayered at h ⊢
  generalize leftLevels = levels at h ⊢
  induction levels generalizing ts e with
  | nil => exact IsPower.mono h himp
  | cons _ _ ih => exact IsChain.mono h fun _ _ h => ih h

/-- What is an expression at some depth is one at every greater depth. -/
theorem isExpression_mono {levels levels' : Nat} (hle : levels ≤ levels')
    (h : IsExpression file levels ts e) : IsExpression file levels' ts e := by
  induction levels generalizing levels' ts e with
  | zero => exact h.elim
  | succ levels ih =>
    obtain ⟨levels', rfl⟩ := Nat.exists_eq_add_of_lt hle
    exact isLayered_mono h fun _ _ h => ih (by omega) h

end Cqasm.Grammar
