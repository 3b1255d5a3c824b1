import GoSource.Text.Reader
import GoSource.TokenStream

/-!
# Scanning a file

A `Scanner` binds a file, cuts its text into a token stream and hands the tokens out one at a time.  The
stream does not depend on the journal; faults of tokens are reported when the token is handed out.

* `Scanner.init` binds a file; `Scanner.setBudget` starts the bound file over under another budget.
* `Scanner.scan` gives the next token; past the last one it gives `eof` for ever.
* `Scanner.scanAll` gives all tokens that are left, `Scanner.scanPast` the next one that is no comment.
-/

namespace GoSource

/-- A token that was handed out. -/
structure Scanned where
  /-- The token's kind. -/
  token : Token := .illegal
  /-- The token's text; empty for operators and keywords. -/
  literal : String := ""
  /-- Where the token starts. -/
  pos : Pos := .none
  /-- Where the token ends. -/
  stop : Pos := .none
  deriving DecidableEq, Repr, Inhabited

/-- The state of scanning a file. -/
structure Scanner where
  /-- The file, its bytes and the journal. -/
  reader : Reader := {}
  /-- The tokens still to come. -/
  stream : TokenStream := .empty
  /-- Offset at which the text ends, from the start of the file. -/
  finish : Nat := 0
  /-- The token handed out last. -/
  last : Scanned := {}
  /-- Whether that token is a semicolon that holds a comment back. -/
  holdsComment : Bool := false
  deriving Inhabited

namespace Scanner

/-- The file being scanned. -/
def file (s : Scanner) : SourceFile :=
  s.reader.file

/-- What was reported. -/
def journal (s : Scanner) : Journal :=
  s.reader.journal

/-- Reads the text of a freshly bound file and goes to its first token.  A file without text ends at its
first byte. -/
def start (reader : Reader) : Scanner :=
  let ((first, runes), reader) := reader.readText
  { reader
    stream := .ofText first runes
    finish := if runes.isEmpty then 0 else first + Rune.widths runes }

/-- Binds a file and its bytes.  Earlier diagnostics stay. -/
def init (s : Scanner) (file : SourceFile) (source : ByteSource) : Scanner :=
  start (s.reader.init file source)

/-- Scans the bound file from its start under another error budget. -/
def setBudget (s : Scanner) (budget : Nat) : Scanner :=
  start (s.reader.setBudget budget).rewind

/-- Adds a diagnostic to the journal. -/
def report (s : Scanner) (d : Diagnostic SourceFault) : Scanner :=
  { s with reader := { s.reader with journal := s.reader.journal.report d } }

/-- Adds a remark in the caller's words. -/
def remark (s : Scanner) (pos : Pos) (text : String) : Scanner :=
  s.report (.make s.file pos (.remark .lexical text))

/-- Forgets all diagnostics. -/
def clearJournal (s : Scanner) : Scanner :=
  { s with reader := { s.reader with journal := s.reader.journal.clear } }

/-- Line and column of a position in the bound file. -/
def position (s : Scanner) (pos : Pos) : Position :=
  s.file.position pos

/-- Reports what is wrong with an entry, at its start. -/
def reportFault (s : Scanner) (item : Item) : Scanner :=
  match item.fault with
  | some fault => s.report (.make s.file (s.file.pos item.start) (.lexical fault))
  | none => s

/-- The token of an entry, placed in the bound file. -/
def place (s : Scanner) (item : Item) : Scanned :=
  { token := item.token
    literal := item.literal
    pos := s.file.pos item.start
    stop := s.file.pos item.stop }

/-- Hands out an entry of the stream. -/
def deliver (s : Scanner) (item : Item) (rest : TokenStream) : Scanned × Scanner :=
  let token := s.place item
  (token,
   { s.reportFault item with stream := rest, last := token, holdsComment := item.holdsComment })

/-- The end of the text. -/
def deliverEnd (s : Scanner) : Scanned × Scanner :=
  let token : Scanned := { token := .eof, pos := s.file.pos s.finish, stop := s.file.pos s.finish }
  (token, { s with last := token, holdsComment := false })

/-- The next token. -/
def scan (s : Scanner) : Scanned × Scanner :=
  match s.stream.pop? with
  | some (item, rest) => s.deliver item rest
  | none => s.deliverEnd

/-- All tokens from here on, the end of the text included. -/
def scanAll (s : Scanner) : List Scanned × Scanner :=
  match _h : s.stream.pop? with
  | some (item, rest) =>
      let delivered := s.deliver item rest
      let (tokens, s) := scanAll delivered.2
      (delivered.1 :: tokens, s)
  | none =>
      let (token, s) := s.deliverEnd
      ([token], s)
termination_by s.stream.items.length
decreasing_by exact TokenStream.length_pop? _h

/-- The next token that is no comment, with the texts of the comments before it after those of
`comments`. -/
def scanPast (s : Scanner) (comments : List String) : (Scanned × List String) × Scanner :=
  match _h : s.stream.pop? with
  | some (item, rest) =>
      let delivered := s.deliver item rest
      if delivered.1.token = .comment then
        scanPast delivered.2 (comments ++ [delivered.1.literal])
      else ((delivered.1, comments), delivered.2)
  | none =>
      let (token, s) := s.deliverEnd
      ((token, comments), s)
termination_by s.stream.items.length
decreasing_by exact TokenStream.length_pop? _h

end Scanner

end GoSource
