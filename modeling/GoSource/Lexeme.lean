import GoSource.Diagnostic
import GoSource.Literal.Quoted
import GoSource.Text.Rune
import GoSource.Unicode.DecimalDigit
import GoSource.Unicode.Letter

/-!
# Lexemes

A source text is a sequence of lexemes: blanks, line ends and tokens.  `Lexeme.split` cuts a text from the
left and always takes the longest piece; the pieces put together are the text again.

* `Lexeme.measure` decides how far the first lexeme reaches and what it is.
* A malformed lexeme still has a token kind, so that a literal stays a literal for the parser; its fault
  stands beside it.
-/

namespace GoSource

/-- What a lexeme is. -/
inductive LexemeKind where
  /-- Spaces, tabs and carriage returns. -/
  | blank
  /-- One line end. -/
  | newline
  /-- A token or a comment. -/
  | token (token : Token)
  deriving DecidableEq, Repr, Inhabited

/-- A piece of a source text. -/
structure Lexeme where
  /-- What it is. -/
  kind : LexemeKind
  /-- Its text. -/
  runes : List Rune
  /-- What is wrong with it, if anything. -/
  fault : Option LexicalFault := none
  deriving DecidableEq, Repr, Inhabited

namespace Lexeme

/-- How far a lexeme reaches past its first rune, and what it is. -/
structure Extent where
  /-- What it is. -/
  kind : LexemeKind
  /-- The number of runes after the first. -/
  more : Nat := 0
  /-- What is wrong with it, if anything. -/
  fault : Option LexicalFault := none
  deriving DecidableEq, Repr

/-- Spaces, tabs and carriage returns separate tokens and mean nothing. -/
def isBlank (c : Char) : Bool :=
  c == ' ' || c == '\t' || c == '\r'

/-- Characters that open a word. -/
def opensWord (c : Char) : Bool :=
  c == '_' || Unicode.isLetter c

/-- Characters that continue a word. -/
def continuesWord (c : Char) : Bool :=
  opensWord c || Unicode.isDecimalDigit c

/-- The decimal digits that numbers are written in. -/
def isDigit (c : Char) : Bool :=
  '0' ≤ c && c ≤ '9'

/-- The number of runes up to and including the first `mark`. -/
def lengthThrough? (mark : Char) : List Rune → Option Nat
  | [] => none
  | r :: rest => if r.char = mark then some 1 else (lengthThrough? mark rest).map (· + 1)

/-- The number of runes up to and including the first `*/`. -/
def lengthThroughEnd? : List Rune → Option Nat
  | [] => none
  | r :: rest =>
      if r.char = '*' ∧ (rest.head?.map Rune.char) = some '/' then some 2
      else (lengthThroughEnd? rest).map (· + 1)

/-- A comment up to the end of its line; what follows the first slash is `rest`. -/
def lineComment (rest : List Rune) : Extent :=
  { kind := .token .comment, more := (rest.takeWhile (·.char != '\n')).length }

/-- A bracketed comment; what follows the first slash is `rest`, its star included. -/
def blockComment (rest : List Rune) : Extent :=
  match lengthThroughEnd? rest.tail with
  | some n => { kind := .token .comment, more := n + 1 }
  | none => { kind := .token .comment, more := rest.length, fault := some .unterminatedComment }

/-- An identifier or keyword that `r` opens. -/
def word (r : Rune) (rest : List Rune) : Extent :=
  let tail := rest.takeWhile (continuesWord ·.char)
  { kind := .token (.lookup (Rune.toString (r :: tail))), more := tail.length }

/-- Letters, digits and underscores continue a number, and so does a point unless another point follows.  A
sign continues it after the letter that opens the exponent. -/
def numberTail (exponentLetter : Char) (previous : Char) : List Rune → Nat
  | [] => 0
  | r :: rest =>
      let c := r.char
      let continues :=
        if c = '.' then rest.head?.map Rune.char != some '.'
        else if c = '+' ∨ c = '-' then previous.toLower == exponentLetter
        else c.isAlphanum || c == '_'
      if continues then numberTail exponentLetter c rest + 1 else 0

/-- A number that `r` opens: a digit, or a point before a digit. -/
def number (r : Rune) (rest : List Rune) : Extent :=
  let isHexadecimal := r.char == '0' && rest.head?.any (·.char.toLower == 'x')
  let more :=
    if r.char = '.' then numberTail 'e' '0' rest.tail + 1
    else numberTail (if isHexadecimal then 'p' else 'e') r.char rest
  match Literal.numberClass? (Rune.chars (r :: rest.take more)) with
  | some c => { kind := .token (.lit c), more }
  | none => { kind := .token .illegal, more, fault := some .invalidNumber }

/-- The body of a quoted literal. -/
structure QuotedBody where
  /-- The number of runes, the closing mark included. -/
  length : Nat := 0
  /-- The number of characters and escapes. -/
  characters : Nat := 0
  /-- Whether every escape is well formed. -/
  escapesFit : Bool := true
  /-- Whether the closing mark is there. -/
  terminated : Bool := false
  deriving DecidableEq, Repr

/-- A body with one more character of `length` runes in front. -/
def QuotedBody.cons (length : Nat) (fits : Bool) (body : QuotedBody) : QuotedBody :=
  { body with
      length := length + body.length
      characters := body.characters + 1
      escapesFit := fits && body.escapesFit }

/-- Measures a quoted body up to its closing mark, or up to the end of the line or text if there is none.
After a backslash that opens no escape the next character of the line is skipped. -/
def quotedBody (mark : Char) (rs : List Rune) : QuotedBody :=
  match rs with
  | [] => {}
  | r :: rest =>
      if r.char = '\n' then {}
      else if r.char = mark then { length := 1, terminated := true }
      else if r.char = '\\' then
        match h : Literal.readEscape? Rune.char mark rest with
        | some (_, rest') =>
            have := Literal.length_readEscape? h
            (quotedBody mark rest').cons (1 + (rest.length - rest'.length)) true
        | none =>
            let skipped := if rest.head?.any (·.char != '\n') then 1 else 0
            (quotedBody mark (rest.drop skipped)).cons (1 + skipped) false
      else (quotedBody mark rest).cons 1 true
termination_by rs.length
decreasing_by
  all_goals simp only [List.length_cons, List.length_drop]
  all_goals omega

/-- A string literal; what follows the opening mark is `rest`. -/
def stringLiteral (rest : List Rune) : Extent :=
  let body := quotedBody '"' rest
  { kind := .token (.lit .string)
    more := body.length
    fault :=
      if !body.terminated then some .unterminatedString
      else if !body.escapesFit then some .invalidEscape
      else none }

/-- A character literal; what follows the opening mark is `rest`. -/
def charLiteral (rest : List Rune) : Extent :=
  let body := quotedBody Literal.charMark rest
  { kind := .token (.lit .char)
    more := body.length
    fault :=
      if !body.terminated then some .unterminatedRune
      else if !body.escapesFit then some .invalidEscape
      else if body.characters != 1 then some .invalidRune
      else none }

/-- A raw string literal; what follows the opening mark is `rest`. -/
def rawString (rest : List Rune) : Extent :=
  match lengthThrough? Literal.rawMark rest with
  | some n => { kind := .token (.lit .string), more := n }
  | none => { kind := .token (.lit .string), more := rest.length, fault := some .unterminatedString }

/-- The longest operator at the start of a text, with its number of runes. -/
def operator? (rs : List Rune) : Option (Operator × Nat) :=
  [3, 2, 1].findSome? fun n =>
    (Operator.ofText? (Rune.toString (rs.take n))).map (·, (rs.take n).length)

/-- An operator, or a rune that belongs to no token.  A malformed byte was reported when it was read. -/
def operatorOrStray (r : Rune) (rest : List Rune) : Extent :=
  match operator? (r :: rest) with
  | some (operator, n) => { kind := .token (.op operator), more := n - 1 }
  | none =>
      let fault : Option LexicalFault :=
        if r = .malformed then none
        else if r = .scalar Rune.bom then some .invalidBom
        else some .invalidCharacter
      { kind := .token .illegal, fault }

/-- Measures the lexeme that starts with `r`. -/
def measure (r : Rune) (rest : List Rune) : Extent :=
  let c := r.char
  let follows := rest.head?.map Rune.char
  if c = '\n' then { kind := .newline }
  else if isBlank c then { kind := .blank, more := (rest.takeWhile (isBlank ·.char)).length }
  else if opensWord c then word r rest
  else if isDigit c || (c == '.' && follows.any isDigit) then number r rest
  else if c = '/' ∧ follows = some '/' then lineComment rest
  else if c = '/' ∧ follows = some '*' then blockComment rest
  else if c = '"' then stringLiteral rest
  else if c = Literal.rawMark then rawString rest
  else if c = Literal.charMark then charLiteral rest
  else operatorOrStray r rest

/-- Cuts a text into lexemes. -/
def split (rs : List Rune) : List Lexeme :=
  match rs with
  | [] => []
  | r :: rest =>
      let extent := measure r rest
      { kind := extent.kind, runes := r :: rest.take extent.more, fault := extent.fault }
        :: split (rest.drop extent.more)
termination_by rs.length
decreasing_by
  simp only [List.length_drop, List.length_cons]
  omega

/-- The lexemes put together are the text: nothing is lost, added or moved. -/
theorem flatMap_runes_split (rs : List Rune) : (split rs).flatMap runes = rs := by
  induction rs using split.induct with
  | case1 => simp [split]
  | case2 r rest extent ih =>
      rw [split, List.flatMap_cons, ih]
      simp [extent]

theorem lookup_ne_eof (s : String) : Token.lookup s ≠ .eof := by
  unfold Token.lookup
  cases Keyword.ofText? s with
  | none => exact nofun
  | some k => exact nofun

theorem kind_number_ne_eof (r : Rune) (rest : List Rune) : (number r rest).kind ≠ .token .eof := by
  unfold number
  dsimp only
  split <;> exact nofun

theorem kind_blockComment_ne_eof (rest : List Rune) : (blockComment rest).kind ≠ .token .eof := by
  unfold blockComment
  split <;> exact nofun

theorem kind_rawString_ne_eof (rest : List Rune) : (rawString rest).kind ≠ .token .eof := by
  unfold rawString
  split <;> exact nofun

theorem kind_operatorOrStray_ne_eof (r : Rune) (rest : List Rune) :
    (operatorOrStray r rest).kind ≠ .token .eof := by
  unfold operatorOrStray
  split <;> exact nofun

/-- The end of the text is not a lexeme. -/
theorem kind_measure_ne_eof (r : Rune) (rest : List Rune) : (measure r rest).kind ≠ .token .eof := by
  have hword : (word r rest).kind ≠ .token .eof := by simp [word, lookup_ne_eof]
  intro h
  simp only [measure] at h
  repeat' split at h
  · simp at h
  · simp at h
  · exact hword h
  · exact kind_number_ne_eof r rest h
  · simp [lineComment] at h
  · exact kind_blockComment_ne_eof rest h
  · simp [stringLiteral] at h
  · exact kind_rawString_ne_eof rest h
  · simp [charLiteral] at h
  · exact kind_operatorOrStray_ne_eof r rest h

theorem kind_ne_eof_of_mem_split {rs : List Rune} {l : Lexeme} (h : l ∈ split rs) :
    l.kind ≠ .token .eof := by
  induction rs using split.induct with
  | case1 => simp [split] at h
  | case2 r rest extent ih =>
      rw [split] at h
      rcases List.mem_cons.1 h with rfl | h
      · exact kind_measure_ne_eof r rest
      · exact ih h

/-- The text that a token carries: none for operators and keywords, which their kind spells. -/
def literal (l : Lexeme) : String :=
  match l.kind with
  | .token (.op _) => ""
  | .token (.kw _) => ""
  | _ => Rune.toString l.runes

/-- The offset of the first line end inside a lexeme. -/
def lineEnd? (l : Lexeme) : Option Nat :=
  if l.runes.any (·.char == '\n') then
    some (Rune.widths (l.runes.takeWhile (·.char != '\n')))
  else none

end Lexeme

end GoSource
