import GoSource.Token

/-!
# Number literals

Which texts are integer, floating-point and imaginary literals.

* `classify?` reads a number without the imaginary suffix.
* `numberClass?` also takes the suffix `i`, after which a run of decimal digits with leading zeros is
  accepted although it would be no octal number.
-/

namespace GoSource.Literal

/-- The bases of number literals. -/
inductive Radix where
  | binary | octal | decimal | hexadecimal
  deriving DecidableEq, Repr, Inhabited

namespace Radix

/-- The base as a number. -/
def base : Radix → Nat
  | .binary => 2
  | .octal => 8
  | .decimal => 10
  | .hexadecimal => 16

/-- The base that the letter after a leading `0` announces. -/
def ofMarker? (c : Char) : Option Radix :=
  match c.toLower with
  | 'x' => some .hexadecimal
  | 'o' => some .octal
  | 'b' => some .binary
  | _ => none

end Radix

/-- The value of a digit in any base up to 36. -/
def digitValue? (c : Char) : Option Nat :=
  if '0' ≤ c ∧ c ≤ '9' then some (c.toNat - 48)
  else if 'a' ≤ c ∧ c ≤ 'z' then some (c.toNat - 87)
  else if 'A' ≤ c ∧ c ≤ 'Z' then some (c.toNat - 55)
  else none

/-- The value of a digit of base `b`. -/
def digit? (b : Nat) (c : Char) : Option Nat :=
  (digitValue? c).filter (· < b)

/-- Whether `c` is a digit of base `b`. -/
def isDigitOf (b : Nat) (c : Char) : Bool :=
  (digit? b c).isSome

/-- Digits and underscores in which each underscore has a digit on either side.  `afterDigit` says whether
what stands before the text counts as a digit. -/
def wellSeparated (isDigit : Char → Bool) (afterDigit : Bool) : List Char → Bool
  | [] => true
  | '_' :: rest =>
      afterDigit && rest.head?.any isDigit && wellSeparated isDigit false rest
  | c :: rest => isDigit c && wellSeparated isDigit true rest

/-- A number literal taken apart: base, digits before the point, digits after it, exponent. -/
structure NumberParts where
  /-- The base. -/
  radix : Radix
  /-- Whether the base was announced by a marker such as `0x`. -/
  marked : Bool
  /-- What stands before the point. -/
  whole : List Char
  /-- What stands after the point, if there is one. -/
  fraction : Option (List Char)
  /-- The letter that opens the exponent and what follows it, if there is one. -/
  exponent : Option (Char × List Char)
  deriving DecidableEq, Repr

/-- Cuts a list before and after the first element with a property. -/
def splitFirst (p : Char → Bool) : List Char → List Char × Option (Char × List Char)
  | [] => ([], none)
  | c :: rest =>
      if p c then ([], some (c, rest))
      else
        let (before, after) := splitFirst p rest
        (c :: before, after)

/-- Takes a number apart: a base marker, then the mantissa up to the first exponent letter, cut at its
first point. -/
def NumberParts.ofChars (cs : List Char) : NumberParts :=
  let (radix, marked, body) : Radix × Bool × List Char :=
    match cs with
    | '0' :: marker :: rest =>
        match Radix.ofMarker? marker with
        | some radix => (radix, true, rest)
        | none => (.decimal, false, cs)
    | _ => (.decimal, false, cs)
  let opensExponent (c : Char) : Bool :=
    c.toLower == 'p' || (radix != .hexadecimal && c.toLower == 'e')
  let (mantissa, exponent) := splitFirst opensExponent body
  let (whole, fraction) := splitFirst (· == '.') mantissa
  { radix, marked, whole, fraction := fraction.map Prod.snd, exponent }

namespace NumberParts

/-- A point or an exponent makes a number a floating-point one. -/
def isFloat (n : NumberParts) : Bool :=
  n.fraction.isSome || n.exponent.isSome

/-- The exponent letter fits the base: `e` for decimal, `p` for hexadecimal numbers, none for the rest. -/
def exponentLetterFits (n : NumberParts) : Bool :=
  n.exponent.all fun (letter, _) =>
    match n.radix with
    | .hexadecimal => letter.toLower == 'p'
    | .decimal => letter.toLower == 'e'
    | _ => false

/-- Only decimal and hexadecimal numbers have a fraction, and a hexadecimal one needs an exponent. -/
def fractionFits (n : NumberParts) : Bool :=
  match n.radix with
  | .decimal => true
  | .hexadecimal => n.fraction.isNone || n.exponent.isSome
  | _ => n.fraction.isNone && n.exponent.isNone

/-- The mantissa has a digit, and its digits and underscores are in order. -/
def mantissaFits (n : NumberParts) : Bool :=
  let isDigit := isDigitOf n.radix.base
  wellSeparated isDigit n.marked n.whole
    && n.fraction.all (wellSeparated isDigit false)
    && (n.whole ++ n.fraction.getD []).any (· != '_')

/-- An unmarked integer with a leading zero is octal. -/
def leadingZeroFits (n : NumberParts) : Bool :=
  match n.whole with
  | '0' :: d :: rest =>
      n.marked || n.isFloat || wellSeparated (isDigitOf 8) true (d :: rest)
  | _ => true

/-- An exponent is an optional sign and at least one decimal digit. -/
def exponentFits (n : NumberParts) : Bool :=
  n.exponent.all fun (_, digits) =>
    let digits :=
      match digits with
      | '+' :: rest => rest
      | '-' :: rest => rest
      | rest => rest
    !digits.isEmpty && wellSeparated (isDigitOf 10) false digits

/-- Whether the parts make up a number literal. -/
def isWellFormed (n : NumberParts) : Bool :=
  n.exponentLetterFits && n.fractionFits && n.mantissaFits && n.leadingZeroFits && n.exponentFits

end NumberParts

/-- The class of a number without imaginary suffix, or `none` if it is malformed. -/
def classify? (cs : List Char) : Option LiteralClass :=
  let n := NumberParts.ofChars cs
  if n.isWellFormed then some (if n.isFloat then .float else .int) else none

/-- The class of a number literal.  With the suffix `i` it is imaginary; there a plain run of decimal
digits and underscores needs no further form. -/
def numberClass? (cs : List Char) : Option LiteralClass :=
  if cs.getLast? = some 'i' then
    let digits := cs.dropLast
    if (classify? digits).isSome || digits.all (fun c => isDigitOf 10 c || c == '_') then some .imag
    else none
  else classify? cs

end GoSource.Literal
