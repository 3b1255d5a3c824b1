/-!
# Bytes as text, with replacements

`decodeLossy` reads bytes as UTF-8 and puts one U+FFFD for each maximal run of bytes that starts an
encoding but does not finish it, and for each byte that starts none.
-/

namespace GoSource.Text

/-- The replacement character U+FFFD. -/
def replacement : Char := '\uFFFD'

/-- Whether `b` is a continuation byte of UTF-8. -/
def isContinuation (b : UInt8) : Bool :=
  0x80 ≤ b && b ≤ 0xBF

/-- Whether `b` may follow the first byte `lead` of an encoding of three or four bytes: overlong forms,
surrogates and values past the last code point are excluded here. -/
def fitsSecond (lead b : UInt8) : Bool :=
  if lead = 0xE0 then 0xA0 ≤ b && b ≤ 0xBF
  else if lead = 0xED then 0x80 ≤ b && b ≤ 0x9F
  else if lead = 0xF0 then 0x90 ≤ b && b ≤ 0xBF
  else if lead = 0xF4 then 0x80 ≤ b && b ≤ 0x8F
  else isContinuation b

/-- The length of the unfinished encoding at `i`, where no complete one starts.  Always at least one. -/
def brokenLength (bytes : ByteArray) (i : Nat) : Nat :=
  let byte (k : Nat) : UInt8 := (bytes.data[i + k]?).getD 0
  let lead := byte 0
  if 0xE0 ≤ lead && lead ≤ 0xEF then
    if fitsSecond lead (byte 1) then 2 else 1
  else if 0xF0 ≤ lead && lead ≤ 0xF4 then
    if fitsSecond lead (byte 1) then (if isContinuation (byte 2) then 3 else 2) else 1
  else 1

/-- The text of the bytes from `i` on. -/
def decodeLossyFrom (bytes : ByteArray) (i : Nat) : List Char :=
  if i < bytes.size then
    match bytes.utf8DecodeChar? i with
    | some c => c :: decodeLossyFrom bytes (i + c.utf8Size)
    | none => replacement :: decodeLossyFrom bytes (i + brokenLength bytes i)
  else []
termination_by bytes.size - i
decreasing_by
  · have := c.utf8Size_pos
    omega
  · have : 1 ≤ brokenLength bytes i := by
      simp only [brokenLength]
      (repeat' split) <;> decide
    omega

/-- The text of a byte string, unreadable parts replaced. -/
def decodeLossy (bytes : ByteArray) : String :=
  String.ofList (decodeLossyFrom bytes 0)

end GoSource.Text
