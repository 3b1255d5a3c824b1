import GoSource.Literal.Number

/-!
# Values of integer literals

`integerValue?` reads an integer literal of any base as a 64-bit word.
-/

namespace GoSource.Literal

/-- The value of a digit string in base `b`, most significant digit first, continuing from `acc`. -/
def ofDigits? (b : Nat) (acc : Nat) : List Char → Option Nat
  | [] => some acc
  | c :: rest => (digit? b c).bind fun d => ofDigits? b (acc * b + d) rest

/-- Values from here on do not fit a 64-bit word. -/
abbrev wordLimit : Nat := 0x10000000000000000

/-- A non-empty digit string in base `b`, with an optional plus sign, whose value fits a 64-bit word. -/
def readWord? (b : Nat) (cs : List Char) : Option Nat :=
  let digits :=
    match cs with
    | '+' :: rest => rest
    | rest => rest
  if digits.isEmpty then none else (ofDigits? b 0 digits).filter (· < wordLimit)

/-- The value of an integer literal: decimal, marked with `0x`, `0o` or `0b`, or octal by a leading zero.
Underscores are ignored wherever they stand. -/
def integerValue? (literal : String) : Option Nat :=
  match literal.toList.filter (· != '_') with
  | '0' :: marker :: rest =>
      match Radix.ofMarker? marker with
      | some radix => readWord? radix.base rest
      | none => readWord? 8 (marker :: rest)
  | digits => readWord? 10 digits

end GoSource.Literal
