import GoSource.Literal.Escape
import GoSource.Text.Lossy

/-!
# Quoted literals

* `quote` writes a text as a double-quoted literal.
* `unquote?` reads string, raw string and character literals.
* `isUncuttable` tells the literals from which no marks can be taken off.

Text that `quote` writes is read back by `unquote?`.
-/

namespace GoSource.Literal

/-- The mark that delimits raw strings. -/
def rawMark : Char := Char.ofNat 0x60

/-- The mark that delimits character literals. -/
def charMark : Char := '\x27'

/-- Control characters: code points below U+0020 and from U+007F to U+009F. -/
def isControl (c : Char) : Bool :=
  c.toNat < 0x20 || (0x7F ≤ c.toNat && c.toNat ≤ 0x9F)

/-- `n` in lower-case hexadecimal digits, filled up with zeros to `width`. -/
def hex (width n : Nat) : List Char :=
  let digits := Nat.toDigits 16 n
  List.replicate (width - digits.length) '0' ++ digits

/-- How a character is written between double quotes. -/
def quoteChar (c : Char) : List Char :=
  match c with
  | '"' => ['\\', '"']
  | '\\' => ['\\', '\\']
  | '\x07' => ['\\', 'a']
  | '\x08' => ['\\', 'b']
  | '\x0c' => ['\\', 'f']
  | '\n' => ['\\', 'n']
  | '\r' => ['\\', 'r']
  | '\t' => ['\\', 't']
  | '\x0b' => ['\\', 'v']
  | c =>
      if c.toNat < 0x20 || c == '\x7f' then '\\' :: 'x' :: hex 2 c.toNat
      else if isControl c then '\\' :: 'u' :: hex 4 c.toNat
      else [c]

/-- A text as a double-quoted literal. -/
def quote (s : String) : String :=
  String.ofList ('"' :: s.toList.flatMap quoteChar ++ ['"'])

/-- The meanings of the characters and escapes between two `mark`s; an unescaped mark, a line end or a
malformed escape makes the literal unreadable. -/
def readBody? (mark : Char) (cs : List Char) : Option (List Escaped) :=
  match cs with
  | [] => some []
  | '\\' :: rest =>
      match h : readEscape? id mark rest with
      | some (meaning, rest') =>
          have := length_readEscape? h
          (readBody? mark rest').map (meaning :: ·)
      | none => none
  | c :: rest =>
      if c == '\n' || c == mark then none else (readBody? mark rest).map (Escaped.char c :: ·)
termination_by cs.length

/-- The bytes of an escape's meaning. -/
def Escaped.bytes : Escaped → List UInt8
  | .char c => String.utf8EncodeChar c
  | .byte b => [b]

/-- The text that a sequence of meanings spells, bytes that form no text replaced. -/
def textOf (meanings : List Escaped) : String :=
  Text.decodeLossy (meanings.flatMap Escaped.bytes).toByteArray

/-- The text between equal marks at both ends of a literal. -/
def bodyOf? (literal : List Char) : Option (Char × List Char) :=
  match literal with
  | mark :: rest => if rest.getLast? = some mark then some (mark, rest.dropLast) else none
  | [] => none

/-- The text of a string, raw string or character literal.  Raw strings drop carriage returns; a character
literal holds exactly one character or escape. -/
def unquote? (literal : String) : Option String :=
  match bodyOf? literal.toList with
  | none => none
  | some (mark, body) =>
      if mark == rawMark then some (String.ofList (body.filter (· != '\r')))
      else if mark == '"' then (readBody? mark body).map textOf
      else if mark == charMark then
        ((readBody? mark body).filter (·.length == 1)).map textOf
      else none

/-- Whether a text begins and ends with the same character, and that has more than one byte.  Marks are taken off as
single bytes, and such a text cannot be cut inside of a character: it is not even no literal. -/
def isUncuttable (literal : String) : Bool :=
  match literal.toList with
  | mark :: rest => 1 < mark.utf8Size && (mark :: rest).getLast? = some mark
  | [] => false

end GoSource.Literal
