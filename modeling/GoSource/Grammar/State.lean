import GoSource.Scanner
import GoSource.Tree.Basic

/-!
# The state of parsing

A parser looks at one token and keeps at most one more that was put back.  It makes nodes from the leaves
up, and it never stops at an error: it reports, leaves a bad node and goes on.

* `Parser.advance` goes to the next token, `Parser.putBack` goes one token back.
* `Parser.left` measures what is still to be read; productions call each other on less of it.
* `Loop.run` is the loop of all productions: it goes on as long as tokens are consumed.
-/

namespace GoSource

/-- What a parser accepts and keeps. -/
structure Mode where
  /-- Whether import declarations are returned; without this they are parsed and dropped. -/
  imports : Bool := true
  /-- Whether declarations and statements are parsed. -/
  decls : Bool := true
  /-- Whether comments are attached to the nodes that follow them. -/
  comments : Bool := false
  deriving DecidableEq, Repr, Inhabited

/-- The mode as a set of bits. -/
def Mode.bits (m : Mode) : Nat :=
  m.imports.toNat + 2 * m.decls.toNat + 4 * m.comments.toNat

/-- The mode that a set of bits stands for; other bits are ignored. -/
def Mode.ofBits (n : Nat) : Mode :=
  { imports := n.testBit 0, decls := n.testBit 1, comments := n.testBit 2 }

/-- The state of parsing a file. -/
structure Parser where
  /-- The tokens still to come, the file and the journal. -/
  scanner : Scanner := {}
  /-- The nodes made so far. -/
  tree : Tree := {}
  /-- What to accept and keep. -/
  mode : Mode := {}
  /-- The token looked at. -/
  curr : Atom := {}
  /-- The token after `curr`, if one was put back. -/
  ahead : Option Atom := none
  /-- Whether a brace after a type name opens a composite literal; not so in the header of a statement, where
  it opens the block. -/
  compositeOk : Bool := false
  deriving Inhabited

namespace Parser

/-- The file being parsed. -/
def file (p : Parser) : SourceFile :=
  p.scanner.file

/-- What was reported. -/
def journal (p : Parser) : Journal :=
  p.scanner.journal

/-- Goes to the next token that is no comment.  The comments passed over wait to be attached to a node, if
the mode asks for them. -/
def advance (p : Parser) : Parser :=
  match p.ahead with
  | some atom => { p with curr := atom, ahead := none }
  | none =>
      let ((next, comments), scanner) := p.scanner.scanPast []
      { p with
          scanner
          curr :=
            { token := next.token
              pos := next.pos
              stop := next.stop
              literal := next.literal
              comments := if p.mode.comments then comments else [] } }

/-- Makes `atom` the current token again; the current one comes after it. -/
def putBack (p : Parser) (atom : Atom) : Parser :=
  { p with curr := atom, ahead := some p.curr }

/-- How many tokens are still to be read, those looked at included; comments and the end of the text do not
count. -/
def left (p : Parser) : Nat :=
  let looked (a : Atom) : Nat := if a.token = .eof then 0 else 1
  p.scanner.stream.count + looked p.curr + p.ahead.elim 0 looked

/-- Goes to the first token of a freshly bound file. -/
def restart (p : Parser) : Parser :=
  ({ p with tree := {}, curr := {}, ahead := none, compositeOk := true }).advance

/-- Binds a file and its bytes.  Earlier diagnostics stay, earlier nodes do not. -/
def init (p : Parser) (file : SourceFile) (source : ByteSource) (mode : Mode) : Parser :=
  ({ p with scanner := p.scanner.init file source, mode }).restart

/-- Parses the bound file from its start under another error budget. -/
def setBudget (p : Parser) (budget : Nat) : Parser :=
  ({ p with scanner := p.scanner.setBudget budget }).restart

/-- A parser at the start of a file. -/
def new (file : SourceFile) (source : ByteSource) (mode : Mode) : Parser :=
  ({} : Parser).init file source mode

/-- Forgets all diagnostics. -/
def clearJournal (p : Parser) : Parser :=
  { p with scanner := p.scanner.clearJournal }

/-- The diagnostic of a syntax fault at a position. -/
def diagnose (p : Parser) (pos : Pos) (fault : SyntaxFault) : Diagnostic SourceFault :=
  .make p.file pos (.syntactic fault)

/-- Whether the last entry of the journal is about a given line. -/
def lastEntryOnLine (p : Parser) (line : Nat) : Bool :=
  p.journal.entries.back?.any (·.position.line == line)

/-- Reports a diagnostic unless the last entry of the journal is about the same line. -/
def complain (p : Parser) (d : Diagnostic SourceFault) : Parser :=
  if p.lastEntryOnLine d.position.line then p else { p with scanner := p.scanner.report d }

end Parser

/-- Parsing actions. -/
abbrev ParseM := StateM Parser

/-- What a round of a loop decides. -/
inductive Turn (σ : Type) where
  /-- Go on with this. -/
  | again (x : σ)
  /-- Stop with this. -/
  | done (x : σ)

namespace Grammar

/-- A loop of a production, which collects something round by round. -/
structure Loop (σ : Type) where
  /-- Whether another round is due at the current token. -/
  more : Token → Bool
  /-- One round. -/
  round : σ → ParseM (Turn σ)

namespace Loop

/-- Runs rounds as long as another one is due, the round does not stop, and each leaves less to be read. -/
def runFrom {σ : Type} (loop : Loop σ) (x : σ) (p : Parser) : σ × Parser :=
  if loop.more p.curr.token then
    let before := p.left
    match loop.round x p with
    | (.done x, p') => (x, p')
    | (.again x, p') => if p'.left < before then loop.runFrom x p' else (x, p')
  else (x, p)
termination_by p.left

/-- The loop as an action. -/
def run {σ : Type} (loop : Loop σ) (x : σ) : ParseM σ :=
  fun p => loop.runFrom x p

end Loop

/-- The current token. -/
def tok : ParseM Token := do
  return (← get).curr.token

/-- Where the current token starts. -/
def here : ParseM Pos := do
  return (← get).curr.pos

/-- Goes to the next token. -/
def next : ParseM Unit :=
  modify Parser.advance

/-- Goes one token back, to `atom`. -/
def putBack (atom : Atom) : ParseM Unit :=
  modify (·.putBack atom)

/-- How much is still to be read. -/
def left : ParseM Nat := do
  return (← get).left

/-- Reports a syntax fault, at most one a line, and returns its diagnostic. -/
def complain (pos : Pos) (fault : SyntaxFault) : ParseM (Diagnostic SourceFault) := do
  let d := (← get).diagnose pos fault
  modify (·.complain d)
  return d

/-- Passes over `token`, or reports that it is missing. -/
def expect (token : Token) : ParseM Unit := do
  if (← tok) = token then next
  else
    let _ ← complain (← here) (.expecting token)

/-- Runs an action with composite literals allowed or not, and goes back to what was before. -/
def withComposite {α : Type} (ok : Bool) (action : ParseM α) : ParseM α := do
  let before := (← get).compositeOk
  modify ({ · with compositeOk := ok })
  let x ← action
  modify ({ · with compositeOk := before })
  return x

/-- Makes nodes. -/
def build {α : Type} (b : Build α) : ParseM α :=
  fun p =>
    let (x, tree) := b p.tree
    (x, { p with tree })

/-- Makes a node. -/
def add (atom : Atom) (shape : NodeShape) : ParseM NodeId :=
  build (Tree.add atom shape)

/-- Where a node starts. -/
def startOf (id : NodeId) : ParseM Pos := do
  return (← get).tree.pos id

/-- The current token as an atom tagged `token`; it keeps its text if the tag is its own kind.  Comments that
wait to be attached move to the atom. -/
def makeAtom (token : Token) : ParseM Atom := do
  let curr := (← get).curr
  modify fun p => { p with curr := { p.curr with comments := [] } }
  return { curr with token, literal := if token = curr.token then curr.literal else "" }

/-- A leaf for the end of the input. -/
def makeEof : ParseM NodeId := do
  add (← makeAtom .eof) .leaf

/-- A bad node at the current token, which stays. -/
def makeBad (fault : SyntaxFault) : ParseM NodeId := do
  let d ← complain (← here) fault
  add (← makeAtom (← tok)) (.bad none d)

/-- A bad node around `node`. -/
def wrapBad (node : NodeId) (fault : SyntaxFault) : ParseM NodeId := do
  let d ← complain (← here) fault
  let atom := ((← get).tree.node node).atom
  add { token := atom.token, pos := atom.pos, stop := atom.stop } (.bad (some node) d)

/-- A bad node for the current token, which is passed over. -/
def parseBad (fault : SyntaxFault) : ParseM NodeId := do
  let bad ← makeBad fault
  next
  return bad

/-- A leaf for the current token, which is passed over. -/
def parseAtom (token : Token) : ParseM NodeId := do
  let atom ← makeAtom token
  next
  add atom .leaf

/-- An identifier, or a bad node in its place. -/
def parseIdent : ParseM NodeId := do
  if (← tok) = .lit .ident then parseAtom (.lit .ident) else makeBad .expectingIdent

/-- Passes over the opening `token`, or gives a bad node in its place. -/
def enter (token : Token) : ParseM (List Child) := do
  if (← tok) = token then
    next
    return []
  else return [some (← makeBad (.expecting token))]

/-- Makes a bad node of every token up to one that `stop` accepts or the end of the text. -/
def skipLoop (stop : Token → Bool) (fault : SyntaxFault) : Loop (List Child) where
  more t := !stop t && t != .eof
  round bads := do
    return .again (bads ++ [some (← parseBad fault)])

/-- Makes bad nodes of all tokens up to one that `stop` accepts or the end of the text. -/
def skipTo (stop : Token → Bool) (fault : SyntaxFault) : ParseM (List Child) :=
  (skipLoop stop fault).run []

/-- Passes over everything up to the closing `token` and over that; gives a bad node for each token skipped,
and one for the missing `token` at the end of the text. -/
def leave (token : Token) : ParseM (List Child) := do
  let bads ← skipTo (· == token) (.expecting token)
  if (← tok) = token then
    next
    return bads
  else return bads ++ [some (← makeBad (.expecting token))]

/-- Passes over everything up to `token` or the end of the text. -/
def passLoop (token : Token) : Loop Unit where
  more t := t != token && t != .eof
  round _ := do
    next
    return .again ()

/-- Passes over everything up to the closing `token` and over that, and wraps `node` in a bad node if anything
was in between. -/
def leaveNode (node : NodeId) (token : Token) : ParseM NodeId := do
  if (← tok) = token then
    next
    return node
  let wrapped ← wrapBad node (.expecting token)
  (passLoop token).run ()
  if (← tok) = token then next
  return wrapped

end Grammar

end GoSource
