import Mathlib.Data.List.Forall2
import Cqasm.Diagnostic
import Cqasm.Proofs.Lexical.Seam

/-!
# Texts further down

The same text at two places, both at the start of a line, is cut into the same tokens and has the
same things wrong with it, some lines apart (`Item.forall₂_ofLexemes`). Ranges move down by as many
lines (`Location.moveDown`), and a range that is made of others moves with them
(`Location.moveDown_through`).
-/

set_option autoImplicit false

namespace Cqasm

/-! ## Ranges -/

/-- The point so many lines further down. An unknown line stays unknown. -/
def Point.moveDown (lines : Nat) (point : Point) : Point :=
  if point.line ≤ 0 then point else { point with line := point.line + lines }

/-- The range so many lines further down. -/
def Location.moveDown (lines : Nat) (range : Location) : Location :=
  { range with first := range.first.moveDown lines, last := range.last.moveDown lines }

variable {lines : Nat}

theorem Point.line_moveDown (point : Point) :
    (point.moveDown lines).line = if point.line ≤ 0 then point.line else point.line + lines := by
  unfold moveDown
  split <;> rfl

theorem Point.column_moveDown (point : Point) :
    (point.moveDown lines).column = point.column := by
  unfold moveDown
  split <;> rfl

/-- Moving down makes no unknown line known. -/
theorem Point.line_moveDown_nonpos_iff {point : Point} :
    (point.moveDown lines).line ≤ 0 ↔ point.line ≤ 0 := by
  rw [line_moveDown]
  split <;> omega

theorem Point.line_moveDown_eq_zero_iff {point : Point} :
    (point.moveDown lines).line = 0 ↔ point.line = 0 := by
  rw [line_moveDown]
  split <;> omega

/-- Points that move down together keep their order, the unknown ones included. -/
theorem Point.moveDown_le_iff {p q : Point} :
    p.moveDown lines ≤ q.moveDown lines ↔ p ≤ q := by
  show (p.moveDown lines).line < (q.moveDown lines).line ∨
      ((p.moveDown lines).line = (q.moveDown lines).line ∧
        (p.moveDown lines).column ≤ (q.moveDown lines).column) ↔
    p.line < q.line ∨ (p.line = q.line ∧ p.column ≤ q.column)
  rw [line_moveDown, line_moveDown, column_moveDown, column_moveDown]
  split <;> split <;> omega

/-- So the later of two points stays the later one. -/
theorem Point.moveDown_max (p q : Point) :
    (max p q).moveDown lines = max (p.moveDown lines) (q.moveDown lines) := by
  show (if p ≤ q then q else p).moveDown lines =
    if p.moveDown lines ≤ q.moveDown lines then q.moveDown lines else p.moveDown lines
  simp only [moveDown_le_iff]
  split <;> rfl

/-- A range that grows to a point moves down with the point. -/
theorem Location.moveDown_grow (range : Location) (point : Point) :
    (range.grow point).moveDown lines = (range.moveDown lines).grow (point.moveDown lines) := by
  have hfirst : (range.moveDown lines).first = range.first.moveDown lines := rfl
  unfold grow
  simp only [Point.line_moveDown_nonpos_iff, hfirst, Point.line_moveDown_eq_zero_iff]
  -- The range is unknown, or the point is, or neither is and the later end counts.
  split
  · rfl
  split
  · rfl
  · rw [moveDown, Point.moveDown_max]
    rfl

/-- From a start further down to a stop further down it is the same way. -/
theorem Location.moveDown_through (start stop : Location) :
    (start.through stop).moveDown lines = (start.moveDown lines).through (stop.moveDown lines) :=
  moveDown_grow ..

/-- A range between two points moves down with both. -/
theorem Location.moveDown_ofBounds (file : String) (first last : Point) :
    (ofBounds file first last).moveDown lines =
      ofBounds file (first.moveDown lines) (last.moveDown lines) := by
  unfold ofBounds moveDown
  rw [Point.moveDown_max]

/-! ## Places -/

/-- The first place is so many lines further down than the second, in the same column. What was read
up to them differs by as much as `a` and `b` do. -/
structure Position.Below (lines a b : Nat) (here there : Position) : Prop where
  offset_eq : here.offset + b = there.offset + a
  line_eq : here.line = there.line + lines
  column_eq : here.column = there.column
  line_pos : 0 < there.line

variable {a b : Nat}

/-- Reading one character keeps two places as far apart as they are. -/
theorem Position.Below.next {here there : Position} (h : here.Below lines a b there) (c : Char) :
    (here.next c).Below lines a b (there.next c) := by
  obtain ⟨hoffset, hline, hcolumn, hpos⟩ := h
  unfold Position.next
  split <;> constructor <;> dsimp only <;> omega

/-- And so does reading a text. -/
theorem Position.Below.after {here there : Position} (h : here.Below lines a b there)
    (text : List Char) : (here.after text).Below lines a b (there.after text) := by
  induction text generalizing here there with
  | nil => exact h
  | cons c text ih => exact ih (h.next c)

/-- The point at such a place is the other one, moved down; no place is on an unknown line. -/
theorem Position.Below.point_eq {here there : Position} (h : here.Below lines a b there)
    (column : Int) :
    (⟨here.line, here.column + column⟩ : Point) =
      (⟨there.line, there.column + column⟩ : Point).moveDown lines := by
  have hpos := h.line_pos
  unfold Point.moveDown
  rw [if_neg (by simp; omega), h.line_eq, h.column_eq]
  simp

/-! ## Tokens -/

/-- The same token at two such places. -/
structure Token.Below (lines a b : Nat) (t u : Token) : Prop where
  kind_eq : t.kind = u.kind
  text_eq : t.text = u.text
  complete_eq : t.complete = u.complete
  start : t.start.Below lines a b u.start

variable {t u : Token}

/-- A token covers the same columns, so many lines further down. -/
theorem Token.Below.location_eq (h : t.Below lines a b u) (file : String) :
    t.location file = (u.location file).moveDown lines := by
  have hfirst : t.firstPoint = u.firstPoint.moveDown lines := h.start.point_eq 1
  have hlast : t.lastPoint = u.lastPoint.moveDown lines := by
    have hstop := (h.start.after u.text).point_eq 0
    rw [← h.text_eq] at hstop
    simpa [lastPoint, stop, h.text_eq] using hstop
  unfold Token.location
  rw [h.kind_eq, hfirst, hlast]
  split <;> exact (Location.moveDown_ofBounds ..).symm

/-- A token is described without its place. -/
theorem Token.Below.description_eq (h : t.Below lines a b u) : t.description = u.description := by
  unfold Token.description
  rw [h.kind_eq, h.text_eq]

/-- The same thing wrong at two such places. -/
inductive Diagnostic.Below (lines a b : Nat) : Diagnostic → Diagnostic → Prop
  | stray {c : Char} {here there : Position} :
      here.Below lines a b there → Below lines a b (.stray c here) (.stray c there)
  | unterminated {t u : Token} :
      t.Below lines a b u → Below lines a b (.unterminated t) (.unterminated u)
  | misplaced {t u : Token} {complaint : Complaint} :
      t.Below lines a b u → Below lines a b (.misplaced t complaint) (.misplaced u complaint)

/-- What was read up to the two things differs by as much as the texts do. -/
theorem Diagnostic.Below.offset_eq {d e : Diagnostic} (h : d.Below lines a b e) :
    d.offset + b = e.offset + a := by
  cases h with
  | stray h => exact h.offset_eq
  | unterminated h => exact h.start.offset_eq
  | misplaced h => exact h.start.offset_eq

theorem Diagnostic.Below.location_eq {d e : Diagnostic} (h : d.Below lines a b e) (file : String) :
    d.location file = (e.location file).moveDown lines := by
  cases h with
  | stray h =>
    rw [location, location, Location.ofPoint, Location.ofPoint, Location.moveDown_ofBounds,
      h.point_eq 1]
  | @unterminated t u h =>
    have hfirst : t.firstPoint = u.firstPoint.moveDown lines := h.start.point_eq 1
    rw [location, location, Location.ofPoint, Location.ofPoint, Location.moveDown_ofBounds, hfirst]
  | misplaced h => exact h.location_eq file

/-- What is said does not depend on the place. -/
theorem Diagnostic.Below.text_eq {d e : Diagnostic} (h : d.Below lines a b e) :
    d.text = e.text := by
  cases h with
  | stray h => rfl
  | unterminated h => exact congrArg (fun kind : Kind => "unterminated " ++ kind.name) h.kind_eq
  | @misplaced t u complaint h =>
    show complaintText t complaint = complaintText u complaint
    cases complaint with
    | expected expectation =>
      exact congrArg (fun description : String =>
        "syntax error, unexpected " ++ description ++ ", expecting " ++ expectation.text)
        h.description_eq
    | nestedTooDeep => rfl
    | integerOutOfRange => rfl

/-- The message of a diagnostic, had it come up so many lines further down. -/
def Diagnostic.messageBelow (lines : Nat) (file : String) (diagnostic : Diagnostic) : String :=
  ((diagnostic.location file).moveDown lines).text ++ ": " ++ diagnostic.text

/-- A message differs by the range in front of it. -/
theorem Diagnostic.Below.message_eq {d e : Diagnostic} (h : d.Below lines a b e) (file : String) :
    d.message file = e.messageBelow lines file := by
  rw [message, messageBelow, h.location_eq file, h.text_eq]

/-! ## Streams -/

/-- The same item at two such places. -/
inductive Item.Below (lines a b : Nat) : Item → Item → Prop
  | token {t u : Token} : t.Below lines a b u → Below lines a b (.token t) (.token u)
  | stray {c : Char} {here there : Position} :
      here.Below lines a b there → Below lines a b (.stray c here) (.stray c there)

theorem Item.forall₂_ofLexemes {here there : Position} (h : here.Below lines a b there)
    (pieces : List Lexeme) :
    List.Forall₂ (Below lines a b) (ofLexemes here pieces) (ofLexemes there pieces) := by
  induction pieces generalizing here there with
  | nil => exact .nil
  | cons piece pieces ih =>
    have hrest := ih (h.after piece.text)
    -- each piece is the same on both sides, so it makes the same item or none
    unfold ofLexemes ofLexeme?
    split
    · exact hrest
    · exact hrest
    · exact .cons (.stray h) hrest
    · exact .cons (.token ⟨rfl, rfl, rfl, h⟩) hrest

/-- Tokens stay in step when what is stray is left out. -/
theorem Item.forall₂_tokens {items items' : List Item}
    (h : List.Forall₂ (Below lines a b) items items') :
    List.Forall₂ (Token.Below lines a b) (items.filterMap token?) (items'.filterMap token?) := by
  induction h with
  | nil => exact .nil
  | cons hitem _ ih =>
    cases hitem with
    | token h => exact .cons h ih
    | stray => exact ih

/-- And so does what is wrong with the items. -/
theorem Item.forall₂_diagnostics {items items' : List Item}
    (h : List.Forall₂ (Below lines a b) items items') :
    List.Forall₂ (Diagnostic.Below lines a b) (items.flatMap diagnostics)
      (items'.flatMap diagnostics) := by
  induction h with
  | nil => exact .nil
  | @cons item item' _ _ hitem _ ih =>
    rw [List.flatMap_cons, List.flatMap_cons]
    apply List.rel_append _ ih
    cases hitem with
    | stray h => exact .cons (.stray h) .nil
    | @token t u h =>
      show List.Forall₂ _ (Diagnostic.ofToken t) (Diagnostic.ofToken u)
      unfold Diagnostic.ofToken
      rw [h.complete_eq]
      split
      · exact .nil
      · exact .cons (.unterminated h) .nil

end Cqasm
