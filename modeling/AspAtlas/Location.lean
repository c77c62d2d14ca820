import AspAtlas.Path.Basic
/-!
Places in source text: one-based line and column positions, and spans of a file.
-/
namespace AspAtlas

/-- A one-based line and column. -/
structure Position where
  line : Nat
  column : Nat
deriving DecidableEq, Repr, Inhabited

namespace Position

/-- Positions are ordered by line, then by column. -/
instance : Ord Position where
  compare := compareLex (compareOn line) (compareOn column)

instance : Std.TransOrd Position :=
  inferInstanceAs (Std.TransCmp (compareLex (compareOn line) (compareOn column)))

/-- Where a text starts. -/
def start : Position := ⟨1, 1⟩

/-- The position after a character: a line feed starts a line, anything else takes a column. -/
def advance (p : Position) (c : Char) : Position :=
  if c = '\n' then ⟨p.line + 1, 1⟩ else ⟨p.line, p.column + 1⟩

end Position

/-- A half-open span of a file. -/
structure Location where
  file : Path
  begin : Position
  stop : Position
deriving BEq, Repr, Inhabited

namespace Location

/-- Locations are ordered by file, then by begin, then by end. -/
instance : Ord Location where
  compare := compareLex (compareOn file) (compareLex (compareOn begin) (compareOn stop))

instance : Std.TransOrd Location :=
  inferInstanceAs (Std.TransCmp
    (compareLex (compareOn file) (compareLex (compareOn begin) (compareOn stop))))

/-- The first line of the span. -/
def line (l : Location) : Nat := l.begin.line

/-- Whether the span reaches over a line end. -/
def isMultiline (l : Location) : Bool := l.begin.line != l.stop.line

/-- The line range as shown in labels: `3` or `3-5`. -/
def lineSpan (l : Location) : String :=
  if l.isMultiline then s!"{l.begin.line}-{l.stop.line}" else toString l.begin.line

/-- Whether the span lies in `file`. -/
def isIn (l : Location) (file : Path) : Bool := l.file == file

/-- The file with the position of the begin, as shown in messages. -/
def display (l : Location) : String := s!"{l.file.text}:{l.begin.line}:{l.begin.column}"

end Location
end AspAtlas
