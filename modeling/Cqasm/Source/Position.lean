/-!
# Positions: where reading a text has got to

A `Position` counts the characters read so far, and with them the line and the column of the next
one. All three are determined by the characters passed (`Position.after`), so whoever needs the end
of a lexeme walks over its text and needs no second bookkeeping.
-/

set_option autoImplicit false

namespace Cqasm

/-- The place of a character in a text: characters before it, its line counted from 1, and the
characters before it on that line. -/
structure Position where
  offset : Nat
  line : Nat
  column : Nat
  deriving DecidableEq, Repr, Inhabited

namespace Position

/-- The place of the first character of a text. -/
def start : Position := ⟨0, 1, 0⟩

/-- The place behind the character `c` that stands here: a newline opens the next line. -/
def next (here : Position) (c : Char) : Position :=
  if c = '\n' then ⟨here.offset + 1, here.line + 1, 0⟩
  else ⟨here.offset + 1, here.line, here.column + 1⟩

/-- The place behind the whole of `text`, which begins here. -/
def after (here : Position) (text : List Char) : Position :=
  text.foldl next here

@[simp] theorem after_nil (here : Position) : here.after [] = here := rfl

@[simp] theorem after_cons (here : Position) (c : Char) (text : List Char) :
    here.after (c :: text) = (here.next c).after text := rfl

/-- Walking over two texts in a row is walking over the second from the end of the first. -/
theorem after_append (here : Position) (left right : List Char) :
    here.after (left ++ right) = (here.after left).after right := by
  simp only [after, List.foldl_append]

/-- Offsets count every character once, newlines included. -/
theorem offset_after (here : Position) (text : List Char) :
    (here.after text).offset = here.offset + text.length := by
  induction text generalizing here with
  | nil => rfl
  | cons c text ih =>
    rw [after_cons, ih, List.length_cons]
    unfold next
    split <;> simp only <;> omega

end Position

end Cqasm
