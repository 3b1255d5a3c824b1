import GoSource.Literal.Quoted

/-!
# Fingerprints

A fingerprint is a 64-bit digest of the structure of a type, mixed byte by byte.  The zero word means
"unknown" and absorbs: whatever is mixed into it or with it stays unknown, so that a type built on an unknown
part has no fingerprint either.
-/

namespace GoSource

/-- A digest of a structure; the zero word is the unknown one. -/
structure Fingerprint where
  /-- The digest. -/
  word : UInt64
  deriving DecidableEq, Repr, Inhabited

namespace Fingerprint

/-- No digest yet. -/
def unknown : Fingerprint :=
  ⟨0⟩

/-- The digest of nothing. -/
def start : Fingerprint :=
  ⟨0xcbf29ce484222325⟩

/-- Whether there is no digest yet. -/
def isUnknown (h : Fingerprint) : Bool :=
  h.word == 0

/-- The digest after one more byte. -/
def step (word : UInt64) (b : UInt8) : UInt64 :=
  (word ^^^ b.toUInt64) * 0x00000100000001b3

/-- Mixes bytes in.  A digest that comes out as zero becomes one, so that it does not read as unknown. -/
def bytes (h : Fingerprint) (bs : List UInt8) : Fingerprint :=
  if h.isUnknown then h
  else
    let word := bs.foldl step h.word
    ⟨if word = 0 then 1 else word⟩

/-- The `width` low bytes of a number, least significant first. -/
def littleEndian : (width n : Nat) → List UInt8
  | 0, _ => []
  | width + 1, n => n.toUInt8 :: littleEndian width (n / 256)

/-- Mixes a byte in. -/
def byte (h : Fingerprint) (n : Nat) : Fingerprint :=
  h.bytes (littleEndian 1 n)

/-- Mixes a 32-bit number in. -/
def word32 (h : Fingerprint) (n : Nat) : Fingerprint :=
  h.bytes (littleEndian 4 n)

/-- Mixes a 64-bit number in. -/
def word64 (h : Fingerprint) (n : Nat) : Fingerprint :=
  h.bytes (littleEndian 8 n)

/-- Mixes a truth value in. -/
def bool (h : Fingerprint) (b : Bool) : Fingerprint :=
  h.byte b.toNat

/-- Mixes a text in, its length first, so that the border between two texts counts. -/
def string (h : Fingerprint) (s : String) : Fingerprint :=
  (h.word64 s.utf8ByteSize).bytes s.toUTF8.data.toList

/-- Mixes another digest in. -/
def mix (h other : Fingerprint) : Fingerprint :=
  if other.isUnknown then unknown else h.word64 other.word.toNat

/-- The digest as sixteen hexadecimal digits, if there is one. -/
def hex? (h : Fingerprint) : Option String :=
  if h.isUnknown then none else some (String.ofList (Literal.hex 16 h.word.toNat))

/-- The digest as traces show it. -/
def render (h : Fingerprint) : String :=
  "TypeHash(" ++ (h.hex?.map ("0x" ++ ·)).getD "unknown" ++ ")"

end Fingerprint

end GoSource
