/-!
# What literals stand for

The value of a literal is read off its text alone, whether or not the text is a complete literal: a
string ends at its first unescaped quote or with the text, and JSON is what is left when the
delimiters that are there are taken away.
-/

set_option autoImplicit false

namespace Cqasm.Literal

/-- The character that a backslash and `c` stand for: three control characters have a letter, and
every other character stands for itself. -/
def escaped (c : Char) : Char :=
  match c with
  | 'n' => '\n'
  | 't' => '\t'
  | 'r' => '\r'
  | c => c

/-- The characters up to the closing quote, escapes replaced. A backslash that ends the text stands
for itself. -/
def unquoted : List Char → List Char
  | [] => []
  | '"' :: _ => []
  | '\\' :: c :: rest => escaped c :: unquoted rest
  | c :: rest => c :: unquoted rest

/-- The value of a string literal, whose first character is the opening quote. -/
def stringValue (text : List Char) : List Char :=
  unquoted text.tail

/-- The text less its opening delimiter of two UTF-16 units. A character outside the basic plane
fills both. -/
def afterOpening : List Char → List Char
  | [] => []
  | c :: rest => if 0xffff < c.toNat then rest else rest.tail

/-- The text less the closing delimiter of a JSON literal, if it ends in one. -/
def beforeClosing (text : List Char) : List Char :=
  if ['|', '}'].isSuffixOf text then text.dropLast.dropLast else text

/-- The JSON text between the delimiters of a JSON literal. -/
def jsonValue (text : List Char) : List Char :=
  beforeClosing (afterOpening text)

/-- The number that a row of decimal digits denotes. -/
def natValue (digits : List Char) : Nat :=
  digits.foldl (fun value d => value * 10 + (d.toNat - '0'.toNat)) 0

/-- The parts of a text between its dots; there is at least one. -/
def dottedParts : List Char → List Char × List (List Char)
  | [] => ([], [])
  | c :: rest =>
    let (part, parts) := dottedParts rest
    if c = '.' then ([], part :: parts) else (c :: part, parts)

/-- The numbers of a version, such as 1 and 0 for `1.0`. -/
def versionNumbers (text : List Char) : List Nat :=
  let (part, parts) := dottedParts text
  (part :: parts).map natValue

end Cqasm.Literal
