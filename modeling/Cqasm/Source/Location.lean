/-!
# Locations: ranges of one named file

A `Location` is what every node and every diagnostic points at: a file name and two `Point`s, the
first and the last character covered. Points are ordered as one reads, line before column, and a
location built here never ends before it starts: `Location.ofBounds` moves a too early end up to the
start, and growing a location only ever takes the later of two ends.

A coordinate counts from 1. The coordinate 0 is reserved for "unknown", and a location whose first
line is unknown prints as its file name alone.
-/

set_option autoImplicit false

namespace Cqasm

/-- A line and a column of a file, both counted from 1; 0 stands for an unknown coordinate. -/
structure Point where
  line : Int
  column : Int
  deriving DecidableEq, Repr, Inhabited

namespace Point

/-- Reading order: an earlier line comes first, and on one line the smaller column does. -/
instance : LE Point :=
  ⟨fun p q => p.line < q.line ∨ (p.line = q.line ∧ p.column ≤ q.column)⟩

instance (p q : Point) : Decidable (p ≤ q) :=
  inferInstanceAs (Decidable (p.line < q.line ∨ (p.line = q.line ∧ p.column ≤ q.column)))

/-- The later of two points in reading order. -/
instance : Max Point := maxOfLe

/-- The point of which nothing is known. -/
def unknown : Point := ⟨0, 0⟩

end Point

/-- A range of one named file, both ends included. -/
structure Location where
  file : String
  first : Point
  last : Point
  deriving DecidableEq, Repr, Inhabited

namespace Location

/-- The range from `first` to `last`. An end that lies before the start is moved up to it. -/
def ofBounds (file : String) (first last : Point) : Location :=
  { file, first, last := max first last }

/-- The range of one character. -/
def ofPoint (file : String) (point : Point) : Location :=
  ofBounds file point point

/-- The range grown to cover `point`. The start stays where it is, unless it is unknown: then the
point becomes the whole range. A point on no line of the file changes nothing. -/
def grow (range : Location) (point : Point) : Location :=
  if point.line ≤ 0 then range
  else if range.first.line = 0 then { range with first := point, last := point }
  else { range with last := max range.last point }

/-- The range that starts where `start` does and reaches at least as far as `stop` does. -/
def through (start stop : Location) : Location :=
  start.grow stop.last

/-- A coordinate with its separator in front, left out when it is unknown. -/
def coordinateText (separator : String) (coordinate : Int) : String :=
  if coordinate = 0 then "" else separator ++ toString coordinate

/-- The end of a range as written after its start: nothing for a single point, the column alone on
the same line, the line and the column otherwise. -/
def endText (range : Location) : String :=
  if range.last.line ≠ range.first.line then
    ".." ++ toString range.last.line ++ coordinateText ":" range.last.column
  else if range.last.column ≠ range.first.column then
    ".." ++ toString range.last.column
  else ""

/-- The range as it is written in front of a diagnostic, such as `file:2:1..8`. -/
def text (range : Location) : String :=
  if range.first.line = 0 then range.file
  else
    range.file ++ ":" ++ toString range.first.line
      ++ coordinateText ":" range.first.column ++ range.endText

end Location

end Cqasm
