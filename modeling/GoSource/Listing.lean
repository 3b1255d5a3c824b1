import GoSource.Literal.Quoted
import GoSource.Scanner

/-!
# Token listings

`tokenListing` prints the tokens of a text, one a line: position, token and, when the token has a text of its
own, that text as a quoted literal.  Fields are separated by tabs.
-/

namespace GoSource

/-- A text given as a string. -/
def ByteSource.ofString (text : String) : ByteSource :=
  { bytes := text.toUTF8 }

/-- A scanner at the start of a named text. -/
def Scanner.ofString (name text : String) : Scanner :=
  ({} : Scanner).init { name } (.ofString text)

/-- The line of a token. -/
def listingLine (file : SourceFile) (t : Scanned) : String :=
  let text := if t.literal.isEmpty then "" else "\t" ++ Literal.quote t.literal
  (file.position t.pos).render ++ "\t" ++ t.token.text ++ text ++ "\n"

/-- The listing of a text up to its end, and what was reported on the way. -/
def tokenListing (name text : String) : String × List (Diagnostic SourceFault) :=
  let (tokens, s) := (Scanner.ofString name text).scanAll
  (String.join (tokens.dropLast.map (listingLine s.file)), s.journal.entries.toList)

end GoSource
