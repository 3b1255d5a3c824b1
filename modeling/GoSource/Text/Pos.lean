/-!
# Positions

A `Pos` is an absolute byte offset in the space that all source files share, or no position at all.  A
`Position` is what a reader of a diagnostic sees: file name, line and column.

* `Pos.ofOffset` clamps: offsets from `Pos.limit` on become the last representable one.
* `Position.render` prints `file:line:column`, and drops the parts that are missing.
-/

namespace GoSource

/-- The number of representable offsets, one less than the number of 32-bit words: the word that is left
over stands for "no position". -/
abbrev Pos.limit : Nat := 4294967295

/-- An absolute byte offset, or no position. -/
inductive Pos where
  /-- No position. -/
  | none
  /-- The byte at `offset`. -/
  | at (offset : Fin Pos.limit)
  deriving DecidableEq, Repr, Inhabited

namespace Pos

/-- The position at `offset`; offsets that do not fit become the last position. -/
def ofOffset (offset : Nat) : Pos :=
  .at ⟨min offset (limit - 1), Nat.lt_of_le_of_lt (Nat.min_le_right ..) (by decide)⟩

/-- The byte offset of a position. -/
def offset? : Pos → Option Nat
  | .none => .none
  | .at offset => some offset.val

/-- The position `n` bytes further on; no position stays no position. -/
def add : Pos → Nat → Pos
  | .none, _ => .none
  | .at offset, n => ofOffset (offset.val + n)

@[simp] theorem offset?_none : Pos.none.offset? = Option.none := rfl

theorem offset?_ofOffset {n : Nat} (h : n < limit) : (ofOffset n).offset? = some n := by
  simp only [ofOffset, offset?, Option.some.injEq]
  exact Nat.min_eq_left (Nat.le_sub_one_of_lt h)

end Pos

/-- A position as people read it.  Line 0 marks a position outside its file; lines and columns of valid
positions count from 1, columns in bytes. -/
structure Position where
  /-- Name of the file, possibly empty. -/
  fileName : String := ""
  /-- Absolute byte offset. -/
  offset : Nat := 0
  /-- Line, from 1; 0 when the position is not valid. -/
  line : Nat := 0
  /-- Column in bytes, from 1; 0 when the position is not valid. -/
  column : Nat := 0
  deriving DecidableEq, Repr, Inhabited

namespace Position

/-- Whether the position lies inside its file. -/
def isValid (p : Position) : Bool :=
  0 < p.line

/-- `file:line:column`; without a file name `line:column`; for an invalid position the file name alone, or
`-` when there is none. -/
def render (p : Position) : String :=
  match p.fileName.isEmpty, p.isValid with
  | false, true => p.fileName ++ ":" ++ toString p.line ++ ":" ++ toString p.column
  | true, true => toString p.line ++ ":" ++ toString p.column
  | false, false => p.fileName
  | true, false => "-"

end Position

end GoSource
