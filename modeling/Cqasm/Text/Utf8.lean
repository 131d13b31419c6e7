/-!
# Reading bytes as UTF-8

Any bytes can be read as text. What is no part of a well-formed character is replaced by U+FFFD, one
for each maximal part: the bytes that begin a character, up to the first byte that cannot go on with
it. That byte is then looked at afresh. A byte order mark is a character like any other.
-/

set_option autoImplicit false

namespace Cqasm.Utf8

/-- What stands for bytes that are no character. -/
def replacement : Char := '\ufffd'

/-- A character that has begun: the bits so far, the bytes still missing, and the range in which the
next byte has to lie. The range is narrower than usual behind some first bytes, which keeps out
overlong forms, surrogates and numbers that are no character. -/
structure Partial where
  bits : Nat
  missing : Nat
  lower : Nat
  upper : Nat
  deriving DecidableEq, Repr

/-- What one byte leads to: characters that are over, and one that has begun. -/
structure Step where
  done : List Char
  begun : Option Partial

/-- What a byte leads to at the start of a character. -/
def first (byte : Nat) : Step :=
  let opens (bits missing lower upper : Nat) : Step :=
    { done := [], begun := some { bits, missing, lower, upper } }
  if byte < 0x80 then { done := [Char.ofNat byte], begun := none }
  else if byte < 0xc2 then { done := [replacement], begun := none }
  else if byte < 0xe0 then opens (byte - 0xc0) 1 0x80 0xbf
  else if byte = 0xe0 then opens 0 2 0xa0 0xbf
  else if byte = 0xed then opens 0xd 2 0x80 0x9f
  else if byte < 0xf0 then opens (byte - 0xe0) 2 0x80 0xbf
  else if byte = 0xf0 then opens 0 3 0x90 0xbf
  else if byte < 0xf4 then opens (byte - 0xf0) 3 0x80 0xbf
  else if byte = 0xf4 then opens 4 3 0x80 0x8f
  else { done := [replacement], begun := none }

/-- What a byte leads to. -/
def step (begun : Option Partial) (byte : Nat) : Step :=
  match begun with
  | none => first byte
  | some part =>
    if part.lower ≤ byte && byte ≤ part.upper then
      let bits := part.bits * 64 + (byte - 0x80)
      if part.missing ≤ 1 then { done := [Char.ofNat bits], begun := none }
      else
        { done := []
          begun := some { bits, missing := part.missing - 1, lower := 0x80, upper := 0xbf } }
    else
      let afresh := first byte
      { afresh with done := replacement :: afresh.done }

/-- The text of bytes, behind the beginning of a character. -/
def decodeFrom (begun : Option Partial) : List Nat → List Char
  | [] => if begun.isSome then [replacement] else []
  | byte :: bytes =>
    let next := step begun byte
    next.done ++ decodeFrom next.begun bytes

/-- The text of bytes. -/
def decode (bytes : List Nat) : List Char :=
  decodeFrom none bytes

end Cqasm.Utf8
