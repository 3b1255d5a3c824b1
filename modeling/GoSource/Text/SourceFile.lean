import GoSource.Text.Pos

/-!
# The line table of a source file

A `SourceFile` knows where each of its lines starts.  Offsets are absolute: a file occupies the bytes from
its base on, so that several files can share one space of positions.

* `SourceFile.addLine` keeps the starts strictly increasing.
* `SourceFile.position` finds the line of a position.
-/

namespace GoSource

/-- A file's name, its size once that is known, and the starts of its lines. -/
structure SourceFile where
  /-- Name shown in diagnostics, possibly empty. -/
  name : String := ""
  /-- Absolute offset of the first byte, which is where line 1 starts. -/
  base : Nat := 0
  /-- Number of bytes, once known. -/
  size : Option Nat := none
  /-- Absolute offsets at which line 2 and the later lines start, increasing. -/
  laterLines : Array Nat := #[]
  deriving DecidableEq, Repr, Inhabited

namespace SourceFile

/-- The starts of all lines, line 1 first. -/
def lineStarts (f : SourceFile) : List Nat :=
  f.base :: f.laterLines.toList

/-- How many lines have been seen. -/
def lineCount (f : SourceFile) : Nat :=
  f.laterLines.size + 1

/-- Absolute offset of the first byte of `line`, counted from 1. -/
def lineStart? (f : SourceFile) (line : Nat) : Option Nat :=
  match line with
  | 0 => none
  | 1 => some f.base
  | n + 2 => f.laterLines[n]?

/-- The start of the last line seen so far. -/
def lastLine (f : SourceFile) : Nat :=
  f.laterLines.back?.getD f.base

/-- Records that a line starts at `offset`; ignored unless that lies past the last recorded start. -/
def addLine (f : SourceFile) (offset : Nat) : SourceFile :=
  if f.lastLine < offset then { f with laterLines := f.laterLines.push offset } else f

/-- Forgets every line but the first. -/
def resetLines (f : SourceFile) : SourceFile :=
  { f with laterLines := #[] }

/-- Fixes the number of bytes. -/
def setSize (f : SourceFile) (size : Nat) : SourceFile :=
  { f with size := some size }

/-- The position of the byte at `offset` from the start of the file. -/
def pos (f : SourceFile) (offset : Nat) : Pos :=
  .ofOffset (f.base + offset)

/-- Whether the absolute `offset` lies in the file.  The offset just past the last byte does; a file of
unknown size has no end. -/
def contains (f : SourceFile) (offset : Nat) : Bool :=
  f.base ≤ offset && f.size.all (offset - f.base ≤ ·)

/-- How many of the increasing `starts` are at most `offset`, when that number lies between `low` and
`high`: halves the interval until it is a point. -/
def countUpTo (starts : Array Nat) (offset low high : Nat) : Nat :=
  if low < high then
    let middle := (low + high) / 2
    if starts.getD middle 0 ≤ offset then countUpTo starts offset (middle + 1) high
    else countUpTo starts offset low middle
  else low
termination_by high - low

/-- Line and column of a position. -/
def position (f : SourceFile) : Pos → Position
  | .none => { fileName := f.name }
  | .at offset =>
      if f.contains offset then
        let earlier := countUpTo f.laterLines offset 0 f.laterLines.size
        let start := (f.lineStart? (earlier + 1)).getD f.base
        { fileName := f.name, offset := offset, line := earlier + 1, column := offset - start + 1 }
      else
        { fileName := f.name, offset := offset }

end SourceFile

end GoSource
