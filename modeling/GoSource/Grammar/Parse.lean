import GoSource.Grammar.Declaration

/-!
# Parsing files

Here the cycles of the grammar are closed.  A nonterminal is called on what is left to read; each call from
inside a production leaves less, or leaves as much and goes to a nonterminal of lower rank.  `weight` is that
order as a number, and `rules` serves the calls below a given weight.

* `Parser.parse` parses the next item of a file, `Parser.parseFile` all of them.
* `Parser.parseExpression`, `Parser.parseDeclaration` parse one construct.
* `ParsedFile.ofString` parses a text in one go.
-/

namespace GoSource.Grammar

/-- The weight of calling a nonterminal of a given rank, below 4. -/
def weight (rank : Nat) (p : Parser) : Nat :=
  p.left * 4 + rank

/-- The rank of types, `if` statements and element lists: each passes over a token before it calls anything. -/
abbrev leadRank : Nat := 0

/-- The rank of unary expressions, which can start with a type. -/
abbrev unaryRank : Nat := 1

/-- The rank of binary expressions, which start with a unary one. -/
abbrev binaryRank : Nat := 2

/-- The rank of statements, which can start with an expression. -/
abbrev stmtRank : Nat := 3

/-- The nonterminals, for calls of weight below `bound`.  A call that is not below it would be a cycle that
reads nothing; it is answered with a bad node, or with nothing where nothing is allowed. -/
def rules (bound : Nat) : Rules := {
  binary := fun precedence p =>
    if _h : weight binaryRank p < bound then binaryExpr (rules (weight binaryRank p)) precedence p
    else makeBad .expectingExpr p
  unary := fun p =>
    if _h : weight unaryRank p < bound then unaryExpr (rules (weight unaryRank p)) p
    else makeBad .expectingExpr p
  type? := fun p =>
    if _h : weight leadRank p < bound then typeExpr? (rules (weight leadRank p)) p
    else (none, p)
  stmt? := fun p =>
    if _h : weight stmtRank p < bound then statement? (rules (weight stmtRank p)) p
    else (none, p)
  ifStmt := fun p =>
    if _h : weight leadRank p < bound then ifStmt (rules (weight leadRank p)) p
    else makeBad .expectingStmt p
  elements := fun p =>
    if _h : weight leadRank p < bound then compositeLit (rules (weight leadRank p)) none p
    else makeBad .expectingExpr p }
termination_by bound

/-- The nonterminals for calls from a given state on. -/
def rulesAt (p : Parser) : Rules :=
  rules (weight stmtRank p + 1)

/-- Runs a production on the nonterminals that serve the current state. -/
def run {α : Type} (production : Rules → ParseM α) : ParseM α :=
  fun p => production (rulesAt p) p

/-- A closing bracket where a declaration should be. -/
def strayClosing (token : Token) : ParseM NodeId := do
  let pos ← here
  let atom ← parseAtom token
  let d ← complain pos .expectingDecl
  let stop := (← get).tree.stop atom
  add { token, pos, stop } (.bad (some atom) d)

/-- An item of a file: nothing for an empty statement or an import that the mode drops, a leaf tagged `eof` at
the end of what the mode accepts. -/
def itemBody? : ParseM (Option NodeId) := do
  let mode := (← get).mode
  let t ← tok
  if t = .eof then some <$> makeEof
  else if t = .kw .package then some <$> packageClause
  else if t = .kw .import_ then
    if mode.imports then some <$> importDecl
    else if mode.decls then
      let _ ← importDecl
      return none
    else some <$> makeEof
  else if t = .op .semicolon then return none
  else if !mode.decls then some <$> makeEof
  else if t.isClosing then some <$> strayClosing t
  else if t.isDecl then some <$> run declaration
  else run statement?

/-- The next item of a file; a semicolon before it is passed over. -/
def item? : ParseM (Option NodeId) := do
  if (← tok) = .op .semicolon then next
  itemBody?

/-- Whether a node may stand at the top level of a file. -/
def isTopLevel (tree : Tree) (n : NodeId) : Bool :=
  tree.isBad n ||
    match tree.op n with
    | .kw .package | .kw .import_ | .kw .const | .kw .var | .kw .type | .kw .func => true
    | _ => false

/-- Reports an item that may not stand at the top level of a file. -/
def checkTopLevel (item : Child) : ParseM Unit := do
  let tree := (← get).tree
  match item.filter fun n => !isTopLevel tree n with
  | some n =>
      let _ ← complain (tree.pos n) .expectingDecl
  | none => return ()

/-- One item after another up to the end, and a bad node after an item that passed over no token. -/
def fileLoop : Loop (List Child) where
  more _ := true
  round decls := do
    let before ← left
    let item ← item?
    if item.any ((← get).tree.op · = .eof) then return .done decls
    checkTopLevel item
    let decls := decls ++ item.toList.map some
    if (← left) = before then return .again (decls ++ [some (← parseBad .expectingDecl)])
    return .again decls

/-- The whole input as a list of its items. -/
def fileNode : ParseM NodeId := do
  let atom := Tree.tagAt (.tag .file) (← here)
  let decls ← fileLoop.run []
  add atom (.list decls)

end GoSource.Grammar

namespace GoSource

namespace Parser

/-- Parses the next item of a file. -/
def parse (p : Parser) : Option NodeId × Parser :=
  Grammar.item? p

/-- Parses the rest of the file into one node. -/
def parseFile (p : Parser) : NodeId × Parser :=
  Grammar.fileNode p

/-- Parses one expression. -/
def parseExpression (p : Parser) : NodeId × Parser :=
  Grammar.run Grammar.Rules.expr p

/-- Parses one declaration. -/
def parseDeclaration (p : Parser) : NodeId × Parser :=
  Grammar.run Grammar.declaration p

end Parser

/-- A parsed file: the tree, the line table, the root, and what was reported. -/
structure ParsedFile where
  /-- The nodes. -/
  tree : Tree
  /-- The file with its line table. -/
  file : SourceFile
  /-- The node of the whole file. -/
  root : NodeId
  /-- Everything that scanner and parser reported; empty if the text is a program. -/
  diagnostics : List (Diagnostic SourceFault)

namespace ParsedFile

/-- Parses a named text. -/
def ofString (name text : String) : ParsedFile :=
  let (root, p) := (Parser.new { name } { bytes := text.toUTF8 } {}).parseFile
  { tree := p.tree, file := p.file, root, diagnostics := p.journal.entries.toList }

/-- The nodes at the top level. -/
def decls (f : ParsedFile) : List NodeId :=
  f.tree.present f.root

/-- The s-expression of the file. -/
def render (f : ParsedFile) : String :=
  f.tree.render f.root

end ParsedFile

end GoSource
