import GoSource.Grammar.Statement

/-!
# Declarations

Packages, imports, constants, variables, types and functions; and statements, of which declarations are
some.
-/

namespace GoSource.Grammar

/-- A package clause. -/
def packageClause : ParseM NodeId := do
  let atom ← makeAtom (.kw .package)
  next
  let name ← parseIdent
  add atom (.unary (some name))

/-- The specifications of a declaration in parentheses, up to the closing one. -/
def specGroup (spec : ParseM NodeId) : ParseM (List Child) :=
  (membersLoop .rparen .rparen spec).run []

/-- A declaration: a keyword and one specification, or several in parentheses. -/
def genDecl (keyword : Keyword) (spec : ParseM NodeId) : ParseM NodeId := do
  let atom ← makeAtom (.kw keyword)
  next
  if (← tok) ≠ .op .lparen then
    let only ← spec
    add atom (.list [some only])
  else
    next
    let specs ← specGroup spec
    add atom (.list (specs ++ (← leave (.op .rparen))))

/-- The name of an import in the file, if it is given one. -/
def localName : ParseM Child := do
  match ← tok with
  | .lit .ident => some <$> parseIdent
  | .op .period => some <$> parseAtom (.op .period)
  | _ => return none

/-- The import of one package, under another name or not. -/
def importSpec : ParseM NodeId := do
  let atom ← makeAtom (.tag .importSpec)
  let name ← localName
  let path ← if (← tok) = .lit .string then parseAtom (.lit .string) else makeBad .expectingString
  add atom (.binary name (some path))

/-- An import declaration. -/
def importDecl : ParseM NodeId :=
  genDecl .import_ importSpec

/-- Names separated by commas, at least one. -/
def nameList : ParseM NodeId := do
  let atom ← makeAtom (.tag .names)
  let names ← moreNames (← parseIdent)
  add atom (.list (names.map some))

variable (g : Rules)

/-- The type of constants or variables, if one is given. -/
def valueType : ParseM Child := do
  match ← tok with
  | .op .assign | .op .semicolon | .op .rparen | .eof => return none
  | _ => some <$> g.type

/-- The values of constants or variables, if they are given. -/
def initialValues : ParseM Child := do
  if (← tok) ≠ .op .assign then return none
  next
  some <$> listExprs (← g.exprs)

/-- The names of constants or variables, with an optional type and optional values. -/
def valueSpec : ParseM NodeId := do
  let atom ← makeAtom (.tag .valueSpec)
  let names ← nameList
  let typ ← valueType g
  let values ← initialValues g
  add atom (.list [some names, typ, values])

/-- What stands in brackets after the name of a type declaration. -/
inductive TypeSpecHead where
  /-- Type parameters, as a node that holds the name too. -/
  | generic (name : NodeId)
  /-- The length of an array type, as the whole type. -/
  | array (typ : NodeId)

/-- Whether type parameters start here, after a bracket.  An identifier directly before the closing bracket is
an array length. -/
def opensTypeParams : ParseM Bool := do
  if (← tok) ≠ .lit .ident then return false
  let ident ← makeAtom (.lit .ident)
  next
  let isArray := (← tok) == .op .rbrack
  putBack ident
  return !isArray

/-- Type parameters after `name`, or an array type: the current token is the bracket. -/
def typeParamsOrArray (name : NodeId) : ParseM TypeSpecHead := do
  let bracket ← makeAtom (.tag .array)
  next
  if ← opensTypeParams then
    let params ← paramsBody g { bracket with token := .tag .params } [] (.op .rbrack) true
    let atom := Tree.tagAt (.tag .generic) (← startOf name)
    return .generic (← add atom (.binary (some name) (some params)))
  else
    let length ← arrayLength g
    return .array (← arrayTail g bracket length)

/-- A type specification from its type on: an alias if an equals sign stands before the type. -/
def typeSpecTail (atom : Atom) (name : NodeId) : ParseM NodeId := do
  let isAlias := (← tok) == .op .assign
  if isAlias then next
  let typ ← g.type
  let token := if isAlias then .op .assign else atom.token
  add { atom with token } (.binary (some name) (some typ))

/-- The name of a type, its type parameters if it has any, and what it stands for. -/
def typeSpec : ParseM NodeId := do
  let atom ← makeAtom (.kw .type)
  let name ← parseIdent
  if (← tok) ≠ .op .lbrack then typeSpecTail g atom name
  else
    match ← typeParamsOrArray g name with
    | .generic name => typeSpecTail g atom name
    | .array typ => add atom (.binary (some name) (some typ))

/-- The name of a function with its type parameters, if it has any; the current token is the one after it. -/
def genericName (name : NodeId) : ParseM NodeId := do
  if (← tok) ≠ .op .lbrack then return name
  let pos ← startOf name
  let params ← params g (.op .lbrack) (.op .rbrack) .params true
  add (Tree.tagAt (.tag .generic) pos) (.binary (some name) (some params))

/-- A function or method declaration. -/
def funcDecl : ParseM NodeId := do
  let atom ← makeAtom (.kw .func)
  next
  let recv ←
    if (← tok) = .op .lparen then some <$> params g (.op .lparen) (.op .rparen) .params false
    else pure none
  let ident ← parseIdent
  let pos ← startOf ident
  let name ← genericName g ident
  let sig ← signature g (Tree.tagAt (.kw .func) pos)
  let body ← if (← tok) = .op .lbrace then some <$> withComposite true (block g) else pure none
  add atom (.list [recv, some name, some sig, body])

/-- A declaration. -/
def declaration : ParseM NodeId := do
  match ← tok with
  | .kw .const => genDecl .const (valueSpec g)
  | .kw .var => genDecl .var (valueSpec g)
  | .kw .type => genDecl .type (typeSpec g)
  | .kw .func => funcDecl g
  | .kw .import_ => importDecl
  | _ => parseBad .expectingDecl

/-- A statement, if one starts here; a separator or a closing brace is left where it is. -/
def statement? : ParseM (Option NodeId) := do
  match ← tok with
  | .op .semicolon | .op .rbrace | .eof => return none
  | .kw .const | .kw .var | .kw .type => some <$> declaration g
  | .op .lbrace => some <$> block g
  | .kw .if_ => some <$> ifStmt g
  | .kw .for_ => some <$> forStmt g
  | .kw .switch => some <$> switchStmt g
  | .kw .select => some <$> selectStmt g
  | .kw .return_ => some <$> returnStmt g
  | .kw .break_ => some <$> jumpStmt .break_
  | .kw .continue_ => some <$> jumpStmt .continue_
  | .kw .goto => some <$> jumpStmt .goto
  | .kw .fallthrough => some <$> parseAtom (.kw .fallthrough)
  | .kw .go => some <$> deferredCall g .go
  | .kw .defer => some <$> deferredCall g .defer
  | .lit .ident => some <$> identStmt g
  | t => if startsExpr t then some <$> simpleStmt g else some <$> parseBad .expectingStmt

end GoSource.Grammar
