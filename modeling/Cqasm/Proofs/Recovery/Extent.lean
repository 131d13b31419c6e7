import Cqasm.Proofs.Recovery.Order

/-!
# How far parts of a tree reach

Where tokens stand one behind the other, whatever a row of them stands for has the range of the row:
from the start of its first token to the end of its last one (`spans_expression`). So a range says
which tokens a part of a tree was read from.
-/

set_option autoImplicit false

namespace Cqasm

/-- A range grows up to a point that is not in front of its end. -/
theorem Location.grow_eq {range : Location} {point : Point} (hline : 0 < range.first.line)
    (hfirst : range.first ≤ range.last) (hle : range.last ≤ point) :
    range.grow point = { range with last := point } := by
  have : range.first.line < point.line ∨ range.first.line = point.line ∧ _ :=
    Point.le_trans hfirst hle
  rw [grow, if_neg (by omega), if_neg (by omega), Point.max_eq_right hle]

namespace Token

variable (file : String) (token : Token)

theorem location_eq : token.location file =
    { file, first := token.firstPoint, last := (token.location file).last } := by
  unfold location
  split <;> rfl

/-- A token does not end before it starts. -/
theorem first_le_last : token.firstPoint ≤ (token.location file).last := by
  unfold location
  split <;> exact Point.le_max_left _ _

end Token

namespace Grammar

variable {file : String} {ts us : List Token} {first last token : Token} {range range' : Location}

/-! ## Rows of tokens -/

/-- The tokens of a row stand one behind the other, each on a line of the text. -/
structure Rises (file : String) (ts : List Token) : Prop where
  apart : ts.Pairwise fun a b => (a.location file).last.Before b.firstPoint
  line_pos : ∀ token ∈ ts, 0 < token.firstPoint.line

/-- Leaving tokens out keeps the rest in order. -/
theorem Rises.sublist (h : Rises file us) (hsublist : ts.Sublist us) : Rises file ts where
  apart := h.apart.sublist hsublist
  line_pos token htoken := h.line_pos token (hsublist.mem htoken)

theorem Rises.left (h : Rises file (ts ++ us)) : Rises file ts :=
  h.sublist (List.sublist_append_left ..)

theorem Rises.right (h : Rises file (ts ++ us)) : Rises file us :=
  h.sublist (List.sublist_append_right ..)

/-- What stands further on ends further on. -/
theorem Rises.last_le (h : Rises file (ts ++ us)) {a b : Token} (ha : a ∈ ts) (hb : b ∈ us) :
    (a.location file).last ≤ (b.location file).last :=
  Point.le_trans ((List.pairwise_append.1 h.apart).2.2 a ha b hb).le (b.first_le_last file)

theorem mem_of_lastSolid? (h : lastSolid? ts = some last) :
    last ∈ ts ∧ last.kind.isSeparator = false := by
  have hmem := List.mem_filter.1 (List.mem_of_getLast? h)
  exact ⟨hmem.1, by simpa using hmem.2⟩

theorem lastSolid?_append (ts : List Token) (h : lastSolid? us = some last) :
    lastSolid? (ts ++ us) = some last := by
  rw [lastSolid?] at h ⊢
  rw [List.filter_append, List.getLast?_append, h]
  rfl

theorem lastSolid?_concat (ts : List Token) (h : last.kind.isSeparator = false) :
    lastSolid? (ts ++ [last]) = some last :=
  lastSolid?_append ts (by simp [lastSolid?, h])

/-- A range goes from the start of the first token of a row to the end of its last one, separators
apart. -/
inductive Span (file : String) : List Token → Location → Prop
  | mk {first last : Token} {rest : List Token} :
      first.kind.isSeparator = false → lastSolid? (first :: rest) = some last →
      Span file (first :: rest)
        { file, first := first.firstPoint, last := (last.location file).last }

theorem span_token (h : token.kind.isSeparator = false) :
    Span file [token] (token.location file) := by
  rw [token.location_eq]
  exact .mk h (by simp [lastSolid?, h])

/-- A span goes on up to the end of what stands behind it. -/
theorem Span.through (h : Span file ts range) (hrises : Rises file (ts ++ us))
    (hlast : lastSolid? us = some last) (hstop : range'.last = (last.location file).last) :
    Span file (ts ++ us) (range.through range') := by
  obtain @⟨first, before, rest, hfirst, hbefore⟩ := h
  have hmem := (mem_of_lastSolid? hbefore).1
  have hle : first.firstPoint ≤ (before.location file).last := by
    rcases List.mem_cons.1 hmem with rfl | hmem
    · exact before.first_le_last file
    · have hbefore := (List.pairwise_cons.1 hrises.left.apart).1 before hmem
      exact Point.le_trans (first.first_le_last file)
        (Point.le_trans hbefore.le (before.first_le_last file))
  rw [Location.through, hstop, Location.grow_eq]
  · exact .mk hfirst (lastSolid?_append (first :: rest) hlast)
  · exact hrises.line_pos first (by simp)
  · exact hle
  · exact hrises.last_le hmem (mem_of_lastSolid? hlast).1

theorem rangeOf_of_lastSolid? (h : lastSolid? (first :: ts) = some last) :
    rangeOf file (first :: ts) = (first.location file).through (last.location file) := by
  rw [rangeOf, h]
  rfl

/-- The range of a row spans it, from its first token to the last one that is solid. -/
theorem span_rangeOf (h : first.kind.isSeparator = false) (hrises : Rises file (first :: ts)) :
    Span file (first :: ts) (rangeOf file (first :: ts)) := by
  cases hts : lastSolid? ts with
  | none =>
    have hlast : lastSolid? (first :: ts) = some first := by
      rw [lastSolid?] at hts ⊢
      rw [List.filter_cons_of_pos (by simp [h]), List.getLast?_cons, hts]
      rfl
    have hthrough : (first.location file).through (first.location file) = first.location file := by
      rw [Location.through, Location.grow_eq]
      · rw [Token.first_location]
        exact hrises.line_pos _ List.mem_cons_self
      · rw [Token.first_location]
        exact first.first_le_last file
      · exact Point.le_refl _
    rw [rangeOf_of_lastSolid? hlast, hthrough, first.location_eq]
    exact .mk h hlast
  | some last =>
    have hlast : lastSolid? (first :: ts) = some last := lastSolid?_append [first] hts
    rw [rangeOf_of_lastSolid? hlast]
    exact (span_token h).through hrises hts rfl

/-- Only one range spans a row. -/
theorem Span.eq (h : Span file ts range) (h' : Span file ts range') : range = range' := by
  cases h with
  | mk _ hlast =>
    cases h' with
    | mk _ hlast' =>
      cases hlast.symm.trans hlast'
      rfl

/-! ## Expressions -/

/-- Every expression of a phrase has the range of its row. -/
def Spans (file : String) (phrase : Phrase Expr) : Prop :=
  ∀ ⦃ts e⦄, phrase ts e → Rises file ts → Span file ts e.location

variable {sub : Phrase Expr}

/-- An expression goes on with another one behind a sign. -/
theorem Span.joined {sign : Token} (h : Span file ts range) (h' : Span file us range')
    (hrises : Rises file (ts ++ sign :: us)) :
    Span file (ts ++ sign :: us) (range.through range') := by
  obtain ⟨-, hlast⟩ := h'
  exact h.through hrises (lastSolid?_append [sign] hlast) rfl

/-- A closing bracket is solid, so what is in brackets spans as a whole. -/
theorem spans_primary : Spans file (IsPrimary file sub) := by
  intro ts e h hrises
  cases h with
  | integer hkind | float hkind | string hkind | json hkind =>
    exact span_token (by rw [hkind]; rfl)
  | name hname =>
    obtain ⟨hkind⟩ := hname
    exact span_token (by rw [hkind]; rfl)
  | call hname =>
    obtain ⟨hkind⟩ := hname
    exact span_rangeOf (by rw [hkind]; rfl) hrises
  | parenthesised hopen =>
    rw [Expr.location_withLocation]
    exact span_rangeOf (by rw [hopen]; rfl) hrises
  | matrix hopen => exact span_rangeOf (by rw [hopen]; rfl) hrises

theorem spans_postfix : Spans file (IsPostfix file sub) := by
  intro ts e h hrises
  induction h with
  | primary he => exact spans_primary he hrises
  | @index ts us opening closing e entries _ _ _ hclose ih =>
    have hlast : lastSolid? (opening :: (us ++ [closing])) = some closing :=
      lastSolid?_concat (opening :: us) (by rw [hclose]; rfl)
    exact (ih hrises.left).through hrises hlast rfl

theorem spans_unary : Spans file (IsUnary file sub) := by
  intro ts e h hrises
  induction h with
  | indexed he => exact spans_postfix he hrises
  | @operator ts sign operator e hsign _ ih =>
    have hkind : sign.kind.isSeparator = false := by
      simp only [List.mem_cons, Prod.mk.injEq, List.not_mem_nil, or_false] at hsign
      rcases hsign with ⟨hkind, -⟩ | ⟨hkind, -⟩ | ⟨hkind, -⟩ <;> rw [hkind] <;> rfl
    have hoperand := ih (Rises.right (List.singleton_append ▸ hrises))
    generalize e.location = range at hoperand
    obtain ⟨-, hlast⟩ := hoperand
    exact (span_token hkind).through hrises hlast rfl

theorem spans_power : Spans file (IsPower file sub) := by
  intro ts e h hrises
  induction h with
  | operand he => exact spans_unary he hrises
  | operator hlhs _ _ ih =>
    exact (spans_unary hlhs hrises.left).joined
      (ih (hrises.right.sublist (List.sublist_cons_self ..))) hrises

/-- Both operands span theirs, and the operator lies between. -/
theorem spans_chain {operators : List (Kind × BinaryOperator)} (hsub : Spans file sub) :
    Spans file (IsChain operators sub) := by
  intro ts e h hrises
  induction h with
  | operand he => exact hsub he hrises
  | operator _ _ hrhs ih =>
    exact (ih hrises.left).joined
      (hsub hrhs (hrises.right.sublist (List.sublist_cons_self ..))) hrises

theorem spans_expression (levels : Nat) : Spans file (IsExpression file levels) := by
  cases levels with
  | zero => exact fun _ _ h => h.elim
  | succ levels =>
    unfold IsExpression IsLayered
    induction leftLevels with
    | nil => exact spans_power
    | cons _ _ ih => exact spans_chain ih

end Grammar

end Cqasm
