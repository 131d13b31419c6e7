import Cqasm.Number.Binary64

/-!
# The shortest text of a double

A double is written with the fewest digits from which it can be read back, and among texts of that
length with the digits nearest to its value. "Read back" is meant literally: a candidate counts when
`Binary64.ofDecimal` maps it to the very double that is to be written.
-/

set_option autoImplicit false

namespace Cqasm.Binary64

/-- The decimal exponent `k` of a fraction that is not zero: it lies in `[10 ^ (k - 1), 10 ^ k)`. -/
def decimalExponent (num den : Nat) : Int :=
  if den ≤ num then ((Nat.toDigits 10 (num / den)).length : Nat)
  else
    match (List.range 400).find? (fun zeros => den ≤ num * Nat.pow 10 (zeros + 1)) with
    | some zeros => -(zeros : Int)
    | none => 0

/-- `num / den` in units of `10 ^ exponent`, as a fraction. -/
def inUnits (num den : Nat) (exponent : Int) : Nat × Nat :=
  if 0 ≤ exponent then (num, den * Nat.pow 10 exponent.toNat)
  else (num * Nat.pow 10 (-exponent).toNat, den)

/-- The multiple of `10 ^ exponent` that reads back as `x` and is nearest to it, if one does. -/
def readingBack? (x : Binary64) (exponent : Int) : Option Nat :=
  let (num, den) := inUnits x.magnitude.1 x.magnitude.2 exponent
  let below := num / den
  let isRead (digits : Nat) : Bool := ofDecimal x.isNegative digits exponent = x
  let nearest := roundHalfEven num den
  if isRead nearest then some nearest
  else [below, below + 1].find? isRead

/-- The fewest digits of a finite double other than zero, and the place of the point counted from
the first of them. -/
def shortestDigits (x : Binary64) : Nat × Int :=
  let point := decimalExponent x.magnitude.1 x.magnitude.2
  let candidates := (List.range 17).filterMap fun (more : Nat) =>
    (x.readingBack? (point - 1 - more)).map (fun digits => (digits, point - 1 - (more : Int)))
  match candidates with
  | [] => (x.significand, point)
  | (digits, exponent) :: _ =>
    (digits, exponent + (Nat.toDigits 10 digits).length)

/-- Digits with the point at a place. Positional notation serves while the point lies at most 21
places behind the first digit and at most 5 zeros in front of it; beyond that there is one digit in
front of the point, if there is a point, and a signed exponent. -/
def layout (digits : List Char) (point : Int) : List Char :=
  let count : Int := digits.length
  if count ≤ point && point ≤ 21 then digits ++ List.replicate (point - count).toNat '0'
  else if 0 < point && point ≤ 21 then
    digits.take point.toNat ++ '.' :: digits.drop point.toNat
  else if -6 < point && point ≤ 0 then
    '0' :: '.' :: List.replicate (-point).toNat '0' ++ digits
  else
    let sign := if 0 < point then '+' else '-'
    let mark := 'e' :: sign :: Nat.toDigits 10 (point - 1).natAbs
    match digits with
    | [] => mark
    | [digit] => digit :: mark
    | digit :: more => digit :: '.' :: more ++ mark

/-- Digits without the zeros at their end. -/
def trimZeros (digits : List Char) : List Char :=
  (digits.reverse.dropWhile (· = '0')).reverse

/-- A double in decimal notation. Zero has no sign. -/
def text (x : Binary64) : String :=
  let sign := if x.isNegative && x.magnitudeBits ≠ 0 then ['-'] else []
  if !x.isFinite then
    if x.magnitudeBits = infinityBits then String.ofList (sign ++ "Infinity".toList) else "NaN"
  else if x.magnitudeBits = 0 then "0"
  else
    let (digits, point) := x.shortestDigits
    String.ofList (sign ++ layout (trimZeros (Nat.toDigits 10 digits)) point)

end Cqasm.Binary64

namespace Cqasm

/-- The text of the double nearest to a whole number. -/
def wholeText (n : Int) : String :=
  (Binary64.ofInt n).text

end Cqasm
