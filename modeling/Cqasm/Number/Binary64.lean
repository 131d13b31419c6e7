/-!
# Doubles

Numbers of the IEEE 754 format with 64 bits, held as their bits and computed with exact integers
only. A fraction is rounded once, to the nearest double and of two equally near ones to the even
one (`Binary64.ofFraction`); every other way into the type goes through that function. The bits of
the nonnegative doubles increase with their values, which is why a significand that rounds up to the
next power of two needs no case of its own: the carry runs into the exponent.
-/

set_option autoImplicit false

namespace Cqasm

/-- The integer nearest to `num / den`, and of two equally near ones the even one. -/
def roundHalfEven (num den : Nat) : Nat :=
  let quotient := num / den
  let twice := 2 * (num % den)
  if den < twice || (twice = den && quotient % 2 = 1) then quotient + 1 else quotient

/-- A double, as its bits. -/
structure Binary64 where
  bits : UInt64
  deriving DecidableEq, Repr, Inhabited

namespace Binary64

/-- The bits of infinity, above those of every finite double. -/
def infinityBits : Nat := 0x7ff0000000000000

/-- The lowest bit of the exponent; the bits below it are the fraction. -/
def exponentUnit : Nat := 0x10000000000000

/-- The sign bit. -/
def signBit : Nat := 0x8000000000000000

/-- The least exponent of the last bit of a significand. -/
def minExponent : Int := -1074

/-- `num / den` in units of `2 ^ exponent`, rounded. -/
def significandAt (num den : Nat) (exponent : Int) : Nat :=
  if 0 ≤ exponent then roundHalfEven num (den <<< exponent.toNat)
  else roundHalfEven (num <<< (-exponent).toNat) den

/-- The exponent of the last bit that a double near `num / den` has room for: 53 bits are kept,
unless the number is too small for that. -/
def exponentOf (num den : Nat) : Int :=
  let guess : Int := num.log2 - den.log2 - 53
  let isLow : Bool :=
    if 0 ≤ guess + 53 then num < den <<< (guess + 53).toNat
    else num <<< (-(guess + 53)).toNat < den
  max minExponent (if isLow then guess else guess + 1)

/-- The bits of the double nearest to `num / den`. -/
def fractionBits (num den : Nat) : Nat :=
  if num = 0 then 0
  else
    let exponent := exponentOf num den
    let raw := (exponent - minExponent).toNat * exponentUnit + significandAt num den exponent
    min raw infinityBits

/-- The double nearest to `num / den`, with the given sign. -/
def ofFraction (isNegative : Bool) (num den : Nat) : Binary64 :=
  ⟨UInt64.ofNat (fractionBits num den + if isNegative then signBit else 0)⟩

/-- The double nearest to `digits · 10 ^ exponent`. Numbers far outside the range of the format are
decided by their exponent alone, so that no power of ten is larger than it has to be: from
`10 ^ 309` on all is infinite, and `10 ^ e` is at most `8 ^ e` for negative `e`. -/
def ofDecimal (isNegative : Bool) (digits : Nat) (exponent : Int) : Binary64 :=
  if digits = 0 then ofFraction isNegative 0 1
  else if 309 ≤ exponent then ofFraction isNegative (1 <<< 1024) 1
  else if 0 ≤ exponent then ofFraction isNegative (digits * Nat.pow 10 exponent.toNat) 1
  else if (digits.log2 : Int) + 1 + 3 * exponent < minExponent - 1 then ofFraction isNegative 0 1
  else ofFraction isNegative digits (Nat.pow 10 (-exponent).toNat)

/-- The double nearest to an integer. -/
def ofInt (n : Int) : Binary64 :=
  ofFraction (n < 0) n.natAbs 1

/-- Whether the sign bit is set. -/
def isNegative (x : Binary64) : Bool :=
  signBit ≤ x.bits.toNat

/-- The bits less the sign bit. -/
def magnitudeBits (x : Binary64) : Nat :=
  x.bits.toNat % signBit

/-- Whether the double is a number and not infinite. -/
def isFinite (x : Binary64) : Bool :=
  x.magnitudeBits < infinityBits

/-- The integer `m` in the magnitude `m · 2 ^ q` of a finite double, below `2 ^ 53`. -/
def significand (x : Binary64) : Nat :=
  if x.magnitudeBits < exponentUnit then x.magnitudeBits
  else x.magnitudeBits % exponentUnit + exponentUnit

/-- The exponent `q` in the magnitude `m · 2 ^ q` of a finite double, at least `minExponent`. -/
def exponent (x : Binary64) : Int :=
  if x.magnitudeBits < exponentUnit then minExponent
  else (x.magnitudeBits / exponentUnit : Nat) - 1 + minExponent

/-- The magnitude of a finite double as a fraction. -/
def magnitude (x : Binary64) : Nat × Nat :=
  if 0 ≤ x.exponent then (x.significand <<< x.exponent.toNat, 1)
  else (x.significand, 1 <<< (-x.exponent).toNat)

/-- The natural number that a double is, if it is one. -/
def toNat? (x : Binary64) : Option Nat :=
  let (num, den) := x.magnitude
  if x.isFinite && num % den = 0 && (num = 0 || !x.isNegative) then some (num / den) else none

/-- The sixteen hexadecimal digits of the bits. -/
def hex (x : Binary64) : String :=
  let digits := Nat.toDigits 16 x.bits.toNat
  String.ofList (List.replicate (16 - digits.length) '0' ++ digits)

end Binary64

/-- The whole number nearest to `n` among the doubles, and nothing when that is infinity. -/
def nearestWhole (n : Nat) : Option Nat :=
  (Binary64.ofFraction false n 1).toNat?

end Cqasm
