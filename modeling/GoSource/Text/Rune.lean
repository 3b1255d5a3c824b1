import GoSource.Text.Lossy

/-!
# Runes

The units of a source text: characters, and bytes that start no character.  A source text is the sequence
of its runes, and the widths of the runes add up to its size, so positions in the text are sums of widths.
-/

namespace GoSource

/-- A unit of a source text. -/
inductive Rune where
  /-- A character in its UTF-8 encoding. -/
  | scalar (c : Char)
  /-- A byte at which no encoding starts. -/
  | malformed
  deriving DecidableEq, Repr, Inhabited

namespace Rune

/-- The character that a rune is read as. -/
def char : Rune → Char
  | .scalar c => c
  | .malformed => Text.replacement

/-- The number of bytes of a rune. -/
def width : Rune → Nat
  | .scalar c => c.utf8Size
  | .malformed => 1

theorem width_pos (r : Rune) : 0 < r.width := by
  cases r with
  | scalar c => exact c.utf8Size_pos
  | malformed => exact Nat.one_pos

/-- The rune that starts at byte `i`. -/
def decodeAt (bytes : ByteArray) (i : Nat) : Rune :=
  match bytes.utf8DecodeChar? i with
  | some c => .scalar c
  | none => .malformed

/-- The number of bytes of a sequence of runes. -/
def widths (rs : List Rune) : Nat :=
  rs.foldr (fun r n => r.width + n) 0

/-- The characters of a sequence of runes. -/
def chars (rs : List Rune) : List Char :=
  rs.map char

/-- A sequence of runes as a string. -/
def toString (rs : List Rune) : String :=
  String.ofList (chars rs)

/-- The byte order mark. -/
def bom : Char := '\uFEFF'

end Rune

end GoSource
