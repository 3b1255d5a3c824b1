import GoSource.Literal.Number

/-!
# Escapes in quoted literals

After a backslash a quoted literal names one character or one byte.  `readEscape?` works on any list
whose elements carry a character, so that the scanner and the reader of finished literals share it.
-/

namespace GoSource.Literal

/-- What an escape stands for. -/
inductive Escaped where
  /-- A character. -/
  | char (c : Char)
  /-- A single byte, which need not be valid text by itself. -/
  | byte (b : UInt8)
  deriving DecidableEq, Repr

/-- Escapes of one letter.  Only the quote that delimits the literal can be escaped. -/
def letterEscape? (quote c : Char) : Option Char :=
  match c with
  | 'a' => some '\x07'
  | 'b' => some '\x08'
  | 'f' => some '\x0c'
  | 'n' => some '\n'
  | 'r' => some '\r'
  | 't' => some '\t'
  | 'v' => some '\x0b'
  | '\\' => some '\\'
  | c => if c = quote then some c else none

/-- Reads `count` digits of base `b` and returns their value, continuing from `acc`, with the rest. -/
def readDigits? {α : Type} (char : α → Char) (b : Nat) :
    (count acc : Nat) → List α → Option (Nat × List α)
  | 0, acc, rest => some (acc, rest)
  | _ + 1, _, [] => none
  | count + 1, acc, x :: rest =>
      (digit? b (char x)).bind fun d => readDigits? char b count (acc * b + d) rest

/-- An escape that is written as a number. -/
structure NumericEscape where
  /-- The base of the digits. -/
  base : Nat
  /-- How many digits follow the opening character. -/
  count : Nat
  /-- The value that the opening character contributes. -/
  first : Nat
  /-- Whether the number is a byte rather than a code point. -/
  isByte : Bool
  deriving DecidableEq, Repr

/-- The form of the number that `c` opens: three octal digits of which `c` is the first, or `x`, `u`, `U`
with two, four, eight hexadecimal digits. -/
def numericEscape? : Char → Option NumericEscape
  | 'x' => some { base := 16, count := 2, first := 0, isByte := true }
  | 'u' => some { base := 16, count := 4, first := 0, isByte := false }
  | 'U' => some { base := 16, count := 8, first := 0, isByte := false }
  | c => (digit? 8 c).map fun d => { base := 8, count := 2, first := d, isByte := true }

/-- What the number of an escape means.  Bytes over 255, surrogates and values past the last code point
are refused. -/
def NumericEscape.meaning? (form : NumericEscape) (n : Nat) : Option Escaped :=
  if form.isByte then
    if n < 256 then some (.byte n.toUInt8) else none
  else
    if n.isValidChar then some (.char (Char.ofNat n)) else none

/-- Reads what follows a backslash and returns its meaning and what follows the escape. -/
def readEscape? {α : Type} (char : α → Char) (quote : Char) : List α → Option (Escaped × List α)
  | [] => none
  | x :: rest =>
      match letterEscape? quote (char x) with
      | some meaning => some (.char meaning, rest)
      | none => do
          let form ← numericEscape? (char x)
          let (n, rest) ← readDigits? char form.base form.count form.first rest
          let meaning ← form.meaning? n
          return (meaning, rest)

theorem length_readDigits? {α : Type} {char : α → Char} {b count acc n : Nat} {xs rest : List α}
    (h : readDigits? char b count acc xs = some (n, rest)) : rest.length ≤ xs.length := by
  induction count generalizing acc xs with
  | zero =>
      simp only [readDigits?, Option.some.injEq, Prod.mk.injEq] at h
      exact Nat.le_of_eq (congrArg List.length h.2.symm)
  | succ count ih =>
      cases xs with
      | nil => simp [readDigits?] at h
      | cons x xs =>
          obtain ⟨d, _, hd⟩ := Option.bind_eq_some_iff.1 h
          exact Nat.le_trans (ih hd) (Nat.le_succ _)

/-- An escape takes at least one element, so reading on after it ends. -/
theorem length_readEscape? {α : Type} {char : α → Char} {quote : Char} {xs rest : List α}
    {e : Escaped} (h : readEscape? char quote xs = some (e, rest)) : rest.length < xs.length := by
  cases xs with
  | nil => simp [readEscape?] at h
  | cons x xs =>
      simp only [readEscape?] at h
      split at h
      · simp only [Option.some.injEq, Prod.mk.injEq] at h
        rw [← h.2]
        exact Nat.lt_succ_self _
      · obtain ⟨form, _, h⟩ := Option.bind_eq_some_iff.1 h
        obtain ⟨⟨n, rest'⟩, hd, h⟩ := Option.bind_eq_some_iff.1 h
        obtain ⟨meaning, _, h⟩ := Option.bind_eq_some_iff.1 h
        have hr : rest' = rest := (Prod.mk.inj (Option.some.inj h)).2
        rw [← hr]
        exact Nat.lt_succ_of_le (length_readDigits? hd)

end GoSource.Literal
