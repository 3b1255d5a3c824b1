import GoSource.Text.SourceFile
import GoSource.Token

/-!
# Diagnostics

A diagnostic is a cause at a position of a file.  Causes are data; their wording stands in one function per
kind of cause.

* `LexicalFault`, `SyntaxFault`: what can be wrong with the text and with the order of its tokens.
* `SourceFault`: the causes that scanner and parser report.
* `Journal`: the diagnostics so far and the budget that limits them.
-/

namespace GoSource

/-- Causes that can be told to a person. -/
class Describe (κ : Type) where
  /-- The wording of a cause. -/
  describe : κ → String

export Describe (describe)

/-- A cause at a position.  The position's line and column are those at the time of the report. -/
structure Diagnostic (κ : Type) where
  /-- Where. -/
  pos : Pos
  /-- Line and column of `pos` when the diagnostic was made. -/
  position : Position
  /-- What. -/
  cause : κ
  deriving DecidableEq, Repr, Inhabited

namespace Diagnostic

/-- A diagnostic at a position of `file`. -/
def make {κ : Type} (file : SourceFile) (pos : Pos) (cause : κ) : Diagnostic κ :=
  { pos, position := file.position pos, cause }

/-- `position: wording`. -/
def render {κ : Type} [Describe κ] (d : Diagnostic κ) : String :=
  d.position.render ++ ": " ++ describe d.cause

/-- One diagnostic a line, the last line without its end. -/
def renderAll {κ : Type} [Describe κ] (ds : List (Diagnostic κ)) : String :=
  String.intercalate "\n" (ds.map render)

end Diagnostic

/-- What can be wrong with a piece of text. -/
inductive LexicalFault where
  | invalidCharacter | invalidUtf8 | invalidBom | invalidNumber | invalidEscape
  | unterminatedString | unterminatedRune | invalidRune | unterminatedComment
  /-- Not a fault of the text: the journal is full. -/
  | tooManyErrors
  deriving DecidableEq, Repr

instance : Inhabited LexicalFault := ⟨.invalidCharacter⟩

/-- The wording of lexical faults. -/
def LexicalFault.message : LexicalFault → String
  | .invalidCharacter => "invalid character"
  | .invalidUtf8 => "invalid UTF-8 encoding"
  | .invalidBom => "invalid BOM in the middle of the file"
  | .invalidNumber => "invalid number literal"
  | .invalidEscape => "invalid escape sequence"
  | .unterminatedString => "string literal not terminated"
  | .unterminatedRune => "rune literal not terminated"
  | .invalidRune => "invalid rune literal"
  | .unterminatedComment => "comment not terminated"
  | .tooManyErrors => "too many errors"

/-- What can be wrong with the order of tokens. -/
inductive SyntaxFault where
  | expecting (token : Token)
  | expectingIdent | expectingDecl | expectingExpr | expectingStmt | expectingType
  | expectingString | missingCondition
  | unexpected (token : Token)
  deriving DecidableEq, Repr, Inhabited

/-- The wording of syntax faults. -/
def SyntaxFault.message : SyntaxFault → String
  | .expecting token => "expecting '" ++ token.text ++ "'"
  | .expectingIdent => "expecting identifier"
  | .expectingDecl => "expecting declaration"
  | .expectingExpr => "expecting expression"
  | .expectingStmt => "expecting statement"
  | .expectingType => "expecting type"
  | .expectingString => "expecting string literal"
  | .missingCondition => "missing condition"
  | .unexpected token => "unexpected '" ++ token.text ++ "'"

/-- The part of the front end that a diagnostic comes from. -/
inductive Phase where
  | lexical | syntactic
  deriving DecidableEq, Repr, Inhabited

/-- What scanner and parser report. -/
inductive SourceFault where
  /-- A malformed piece of text, or a full journal. -/
  | lexical (fault : LexicalFault)
  /-- Tokens in an order that no production allows. -/
  | syntactic (fault : SyntaxFault)
  /-- The source could not be read to its end. -/
  | unreadable (reason : String)
  /-- A remark in the caller's own words. -/
  | remark (phase : Phase) (text : String)
  deriving DecidableEq, Repr

instance : Inhabited SourceFault := ⟨.lexical default⟩

namespace SourceFault

/-- Reading belongs to the lexical phase. -/
def phase : SourceFault → Phase
  | .lexical _ => .lexical
  | .syntactic _ => .syntactic
  | .unreadable _ => .lexical
  | .remark phase _ => phase

/-- The wording of what scanner and parser report. -/
def message : SourceFault → String
  | .lexical fault => fault.message
  | .syntactic fault => fault.message
  | .unreadable reason => "read error: " ++ reason
  | .remark _ text => text

end SourceFault

instance : Describe SourceFault := ⟨SourceFault.message⟩

/-- What scanner and parser have reported, and how much more they may. -/
structure Journal where
  /-- The diagnostics, oldest first. -/
  entries : Array (Diagnostic SourceFault) := #[]
  /-- After this many entries the journal closes; 0 means never. -/
  budget : Nat := 10
  /-- Whether the journal is closed. -/
  closed : Bool := false
  /-- How many entries stood in the journal when the current file was opened. -/
  kept : Nat := 0
  deriving DecidableEq, Repr, Inhabited

namespace Journal

/-- Adds a diagnostic unless the journal is closed.  The entry that reaches the budget closes it, with a
last entry that says so at the same position. -/
def report (j : Journal) (d : Diagnostic SourceFault) : Journal :=
  if j.closed then j
  else
    let j := { j with entries := j.entries.push d }
    if 0 < j.budget ∧ j.budget ≤ j.entries.size then
      { j with closed := true
               entries := j.entries.push { d with cause := .lexical .tooManyErrors } }
    else j

/-- Opens the journal for a new file: earlier entries stay and count against the budget. -/
def openFile (j : Journal) : Journal :=
  { j with closed := false, kept := j.entries.size }

/-- Takes back every entry made since the file was opened. -/
def rewind (j : Journal) : Journal :=
  { j with closed := false, entries := j.entries.take j.kept }

/-- Forgets all entries.  A closed journal stays closed. -/
def clear (j : Journal) : Journal :=
  { j with entries := #[] }

end Journal

end GoSource
