import GoSource.Grammar.Parameter

/-!
# Type expressions

Type names with their arguments, arrays, slices, maps, channels, functions, structs and interfaces.
-/

namespace GoSource.Grammar

variable (g : Rules)

/-- A type, and another after each comma in brackets. -/
def typeArgumentsLoop : Loop (List Child) where
  more t := t != .op .rbrack && t != .eof
  round args := do
    let args := args ++ [some (← g.type)]
    if (← tok) ≠ .op .comma then return .done args
    next
    return .again args

/-- The arguments in brackets after a type name. -/
def typeArguments (name : NodeId) : ParseM NodeId := do
  let pos ← startOf name
  let atom := { ← makeAtom (.tag .index) with pos }
  next
  let args ← (typeArgumentsLoop g).run []
  let arg ← if args.isEmpty then some <$> makeBad .expectingType else argumentsPart pos args
  let instantiated ← add atom (.binary (some name) arg)
  leaveNode instantiated (.op .rbrack)

/-- A name, possibly qualified by the name of a package. -/
def qualifiedName : ParseM NodeId := do
  let name ← parseIdent
  if (← tok) ≠ .op .period then return name
  let atom := { ← makeAtom (.op .period) with pos := ← startOf name }
  next
  let selected ← parseIdent
  add atom (.binary (some name) (some selected))

/-- A type name, possibly qualified, possibly with arguments. -/
def typeName : ParseM NodeId := do
  let name ← qualifiedName
  if (← tok) = .op .lbrack then typeArguments g name else return name

/-- The length of an array type: absent for a slice, `...`, or an expression. -/
def arrayLength : ParseM Child := do
  match ← tok with
  | .op .rbrack => return none
  | .op .ellipsis => some <$> parseAtom (.op .ellipsis)
  | _ => some <$> withComposite true g.expr

/-- An array or slice type. -/
def arrayType : ParseM NodeId := do
  let atom ← makeAtom (.tag .array)
  next
  let length ← arrayLength g
  arrayTail g atom length

/-- A map type. -/
def mapType : ParseM NodeId := do
  let atom ← makeAtom (.kw .map)
  next
  expect (.op .lbrack)
  let key ← g.type
  expect (.op .rbrack)
  let elem ← g.type
  add atom (.binary (some key) (some elem))

/-- The direction of a channel type after `chan`. -/
def chanDirection : ParseM Token := do
  if (← tok) ≠ .op .arrow then return .tag .bothDir
  next
  return .tag .sendDir

/-- A channel type that starts with `chan`. -/
def chanType : ParseM NodeId := do
  let atom ← makeAtom (.tag .bothDir)
  next
  let token ← chanDirection
  let elem ← g.type
  add { atom with token } (.unary (some elem))

/-- A channel type that starts with the arrow `arrow`, which was passed over. -/
def recvChanType (arrow : Atom) : ParseM NodeId := do
  expect (.kw .chan)
  let elem ← g.type
  add { arrow with token := .tag .recvDir } (.unary (some elem))

/-- A function type. -/
def funcType : ParseM NodeId := do
  let atom ← makeAtom (.kw .func)
  next
  signature g atom

/-- Skips to a semicolon, which is passed over, or to `close`; `missing` is what should stand here. -/
def skipMember (close missing : Operator) : ParseM (List Child) := do
  let bads ← skipTo (fun t => t == .op .semicolon || t == .op close) (.expecting (.op missing))
  if (← tok) = .op .semicolon then next
  return bads

/-- What follows a member of a list: a semicolon or the closing `close`; anything else up to them is skipped.
`before` is what was left to read when the member began. -/
def memberEnd (close missing : Operator) (before : Nat) : ParseM (List Child) := do
  let t ← tok
  if t = .op .semicolon then
    next
    return []
  else if t = .op close ∨ t = .eof then return []
  else
    if (← left) ≠ before then
      let _ ← complain (← here) (.expecting (.op .semicolon))
    skipMember close missing

/-- A member and what ends it, up to `close`. -/
def membersLoop (close missing : Operator) (member : ParseM NodeId) : Loop (List Child) where
  more t := t != .op close && t != .eof
  round kids := do
    let before ← left
    let kid ← member
    return .again (kids ++ some kid :: (← memberEnd close missing before))

/-- The members of a struct or interface between braces. -/
def members (member : ParseM NodeId) : ParseM (List Child) := do
  let opened ← enter (.op .lbrace)
  let kids ← (membersLoop .rbrace .semicolon member).run opened
  return kids ++ (← leave (.op .rbrace))

/-- A name after each comma. -/
def namesLoop : Loop (List NodeId) where
  more t := t == .op .comma
  round names := do
    next
    return .again (names ++ [← parseIdent])

/-- The names before the type of a field, after the first one. -/
def moreNames (first : NodeId) : ParseM (List NodeId) :=
  namesLoop.run [first]

/-- Names and type of a struct field.  An embedded type has no names. -/
def fieldNamesAndType : ParseM (List NodeId × NodeId) := do
  match ← tok with
  | .lit .ident =>
      let first ← makeAtom (.lit .ident)
      next
      match ← tok with
      | .op .semicolon | .op .rbrace | .lit .string | .op .period =>
          putBack first
          return ([], ← typeName g)
      | .op .lbrack =>
          let name ← add first .leaf
          return ([name], ← g.type)
      | _ =>
          let names ← moreNames (← add first .leaf)
          return (names, ← g.type)
  | .op .mul =>
      let atom ← makeAtom (.op .mul)
      next
      let t ← typeName g
      return ([], ← add atom (.unary (some t)))
  | _ => return ([], ← g.type)

/-- A field of a struct. -/
def structField : ParseM NodeId := do
  let (names, typ) ← fieldNamesAndType g
  let tag ← if (← tok) = .lit .string then some <$> parseAtom (.lit .string) else pure none
  build (Tree.addField names typ tag)

/-- A struct type. -/
def structType : ParseM NodeId := do
  let atom ← makeAtom (.kw .struct)
  next
  add atom (.list (← members (structField g)))

/-- An embedded type or union of an interface. -/
def embeddedElem : ParseM NodeId := do
  let t ← union g
  build (Tree.addField [] t none)

/-- A method of an interface, or an embedded type or union. -/
def interfaceElem : ParseM NodeId := do
  if (← tok) ≠ .lit .ident then return ← embeddedElem g
  let ident ← makeAtom (.lit .ident)
  next
  if (← tok) ≠ .op .lparen then
    putBack ident
    return ← embeddedElem g
  let name ← add ident .leaf
  let sig ← signature g (Tree.tagAt (.kw .func) ident.pos)
  build (Tree.addField [name] sig none)

/-- An interface type. -/
def interfaceType : ParseM NodeId := do
  let atom ← makeAtom (.kw .interface)
  next
  add atom (.list (← members (interfaceElem g)))

/-- A type, if one starts here. -/
def typeExpr? : ParseM (Option NodeId) := do
  match ← tok with
  | .lit .ident => some <$> typeName g
  | .op .lbrack => some <$> arrayType g
  | .kw .struct => some <$> structType g
  | .op .mul =>
      let atom ← makeAtom (.op .mul)
      next
      let elem ← g.type
      some <$> add atom (.unary (some elem))
  | .kw .func => some <$> funcType g
  | .kw .interface => some <$> interfaceType g
  | .kw .map => some <$> mapType g
  | .kw .chan => some <$> chanType g
  | .op .arrow =>
      let atom ← makeAtom (.op .arrow)
      next
      some <$> recvChanType g atom
  | .op .lparen =>
      next
      let t ← g.type
      some <$> leaveNode t (.op .rparen)
  | _ => return none

end GoSource.Grammar
