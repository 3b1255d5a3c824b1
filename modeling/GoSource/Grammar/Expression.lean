import GoSource.Grammar.TypeExpr

/-!
# Expressions

Operands, the suffixes that extend them, unary operators, and binary operators by precedence.
-/

namespace GoSource.Grammar

variable (g : Rules)

/-- Tokens that end a list of statements. -/
def endsList : Token → Bool
  | .op .rbrace | .kw .case_ | .kw .default_ | .eof => true
  | _ => false

/-- A statement and what separates it from the next one.  A token that starts no statement is bad. -/
def stmtLoop : Loop (List Child) where
  more t := !endsList t
  round stmts := do
    let before ← left
    let stmts := stmts ++ (← g.stmt?).toList.map some
    let t ← tok
    if t = .op .semicolon then
      next
      return .again stmts
    else if endsList t then return .again stmts
    else if (← left) = before then
      return .again (stmts ++ [some (← parseBad .expectingStmt)])
    else
      let _ ← complain (← here) (.expecting (.op .semicolon))
      return .again stmts

/-- The statements of a block up to its closing brace or the next clause. -/
def stmtList (stmts : List Child) : ParseM (List Child) :=
  (stmtLoop g).run stmts

/-- A block of statements between braces. -/
def block : ParseM NodeId := do
  let atom ← makeAtom (.tag .block)
  let opened ← enter (.op .lbrace)
  let stmts ← withComposite true (stmtList g opened)
  add atom (.list (stmts ++ (← leave (.op .rbrace))))

/-- A function type, or a function literal if a body follows. -/
def funcTypeOrLiteral : ParseM NodeId := do
  let lambda ← makeAtom (.tag .lambda)
  let sig ← funcType g
  if (← tok) ≠ .op .lbrace then return sig
  let body ← withComposite true (block g)
  add lambda (.binary (some sig) (some body))

/-- An operand: a name, a literal, an expression in parentheses, a type or a function. -/
def operand : ParseM NodeId := do
  match ← tok with
  | .lit .ident => parseIdent
  | .lit class_ => parseAtom (.lit class_)
  | .op .lparen =>
      let atom ← makeAtom (.op .lparen)
      next
      let x ← withComposite true g.expr
      let paren ← add atom (.unary (some x))
      leaveNode paren (.op .rparen)
  | .kw .func => funcTypeOrLiteral g
  | .op .lbrack | .kw .struct | .kw .map | .kw .chan | .kw .interface => g.type
  | .op .rparen | .op .rbrack | .op .rbrace | .op .semicolon | .op .comma | .op .colon | .eof =>
      makeBad .expectingExpr
  | _ => parseBad .expectingExpr

/-- A selector or a type assertion on `x`; the current token is the point. -/
def selectorOrAssertion (x : NodeId) : ParseM NodeId := do
  let atom := { ← makeAtom (.op .period) with pos := ← startOf x }
  next
  match ← tok with
  | .lit .ident =>
      let selected ← parseIdent
      add atom (.binary (some x) (some selected))
  | .op .lparen =>
      next
      let typ ← if (← tok) = .kw .type then parseAtom (.kw .type) else g.type
      let assertion ← add { atom with token := .tag .typeAssert } (.binary (some x) (some typ))
      leaveNode assertion (.op .rparen)
  | _ =>
      let bad ← makeBad .expectingIdent
      add atom (.binary (some x) (some bad))

/-- The bound after a colon of a slice expression, if there is one. -/
def sliceBound : ParseM Child := do
  next
  match ← tok with
  | .op .colon | .op .rbrack | .eof => return none
  | _ => some <$> g.expr

/-- The parts of a slice expression on `x`, from its first colon on.  With a second colon both bounds after
the first one are due. -/
def sliceParts (x : NodeId) (low : Child) : ParseM (List Child) := do
  let high ← sliceBound g
  if (← tok) ≠ .op .colon then return [some x, low, high, none]
  let max ← sliceBound g
  if high.isNone || max.isNone then
    let _ ← complain (← here) .expectingExpr
  return [some x, low, high, max]

/-- An expression after each comma in brackets, the last comma apart. -/
def indexLoop : Loop (List Child) where
  more t := t == .op .comma
  round args := do
    next
    if (← tok) = .op .rbrack then return .done args
    return .again (args ++ [some (← g.expr)])

/-- The index of an index expression: one expression, or several as type arguments. -/
def indexArguments (first : Child) : ParseM Child := do
  if first.isNone then return some (← makeBad .expectingExpr)
  if (← tok) ≠ .op .comma then return first
  let args ← (indexLoop g).run [first]
  some <$> listExprs args

/-- An index or slice expression on `x` between its brackets. -/
def indexBody (atom : Atom) (x : NodeId) : ParseM NodeId := do
  let first ← if (← tok) = .op .colon then pure none else some <$> g.expr
  if (← tok) = .op .colon then
    let kids ← sliceParts g x first
    add { atom with token := .tag .slice } (.list kids)
  else
    let index ← indexArguments g first
    add atom (.binary (some x) index)

/-- An index or slice expression on `x`; the current token is the bracket. -/
def indexOrSlice (x : NodeId) : ParseM NodeId := do
  let atom := { ← makeAtom (.tag .index) with pos := ← startOf x }
  next
  let node ← withComposite true (indexBody g atom x)
  leaveNode node (.op .rbrack)

/-- One argument of a call, possibly spread. -/
def argument : ParseM NodeId := do
  let arg ← g.expr
  if (← tok) ≠ .op .ellipsis then return arg
  let spread ← makeAtom (.op .ellipsis)
  next
  add spread (.unary (some arg))

/-- An argument, and another after each comma in parentheses. -/
def argumentsLoop : Loop (List Child) where
  more t := t != .op .rparen && t != .eof
  round args := do
    let args := args ++ [some (← argument g)]
    if (← tok) ≠ .op .comma then return .done args
    next
    return .again args

/-- A call of `f`; the current token is the parenthesis. -/
def call (f : NodeId) : ParseM NodeId := do
  let atom := { ← makeAtom (.tag .call) with pos := ← startOf f }
  next
  let args ← withComposite true ((argumentsLoop g).run [some f])
  add atom (.list (args ++ (← leave (.op .rparen))))

/-- The key or the value of an element of a composite literal. -/
def elementValue : ParseM NodeId := do
  if (← tok) = .op .lbrace then g.elements else g.expr

/-- An element of a composite literal, possibly with a key. -/
def element : ParseM NodeId := do
  let key ← elementValue g
  if (← tok) ≠ .op .colon then return key
  let atom := { ← makeAtom (.tag .keyValue) with pos := ← startOf key }
  next
  let value ← elementValue g
  add atom (.binary (some key) (some value))

/-- The elements of a composite literal and the commas after them.  A token that starts no element is bad. -/
def elementsLoop : Loop (List Child) where
  more t := t != .op .rbrace && t != .eof
  round elems := do
    let before ← left
    let elems := elems ++ [some (← element g)]
    if (← tok) = .op .comma then
      next
      return .again elems
    else if (← left) = before then
      return .again (elems ++ [some (← parseBad (.expecting (.op .rbrace)))])
    else return .done elems

/-- A composite literal of a type that was parsed already, or that is left out; the current token is the
brace. -/
def compositeLit (typ : Child) : ParseM NodeId := do
  let atom ← atomFrom .compositeLit typ
  let listAtom ← makeAtom (.tag .exprs)
  let opened ← enter (.op .lbrace)
  let elems ← withComposite true ((elementsLoop g).run opened)
  let elems := elems ++ (← leave (.op .rbrace))
  let list ← add listAtom (.list elems)
  add atom (.binary typ (some list))

/-- Whether a brace after `x` opens a composite literal of type `x`. -/
def isLiteralType (p : Parser) (x : NodeId) : Bool :=
  match p.tree.op x with
  | .tag .array | .kw .struct | .kw .map => true
  | .lit .ident | .op .period | .tag .index => p.compositeOk && !p.tree.isBad x
  | _ => false

/-- Tokens that extend an operand. -/
def extendsOperand : Token → Bool
  | .op .period | .op .lbrack | .op .lparen | .op .lbrace => true
  | _ => false

/-- One suffix of an operand after another. -/
def suffixLoop : Loop NodeId where
  more := extendsOperand
  round x := do
    match ← tok with
    | .op .period => .again <$> selectorOrAssertion g x
    | .op .lbrack => .again <$> indexOrSlice g x
    | .op .lparen => .again <$> call g x
    | _ =>
        if isLiteralType (← get) x then .again <$> compositeLit g (some x)
        else return .done x

/-- Selectors, assertions, indexes, slices, calls and composite literals on `x`. -/
def suffixes (x : NodeId) : ParseM NodeId :=
  (suffixLoop g).run x

/-- Operators that stand before their operand. -/
def isUnary : Operator → Bool
  | .add | .sub | .not | .xor | .and | .tilde | .mul => true
  | _ => false

/-- An expression without binary operators at its top. -/
def unaryExpr : ParseM NodeId := do
  match ← tok with
  | .op .arrow =>
      let atom ← makeAtom (.op .arrow)
      next
      if (← tok) = .kw .chan then
        suffixes g (← recvChanType g atom)
      else
        let x ← g.unary
        add atom (.unary (some x))
  | .op o =>
      if isUnary o then
        let atom ← makeAtom (.op o)
        next
        let x ← g.unary
        add atom (.unary (some x))
      else suffixes g (← operand g)
  | _ => suffixes g (← operand g)

/-- An operand after each operator that binds at least as tightly as `precedence`. -/
def binaryLoop (precedence : Nat) : Loop NodeId where
  more t := precedence ≤ t.precedence
  round x := do
    let op ← tok
    let atom ← makeAtom op
    next
    let y ← g.binary (op.precedence + 1)
    return .again (← add atom (.binary (some x) (some y)))

/-- Binary operators that bind at least as tightly as `precedence`, nested to the left. -/
def binaryExpr (precedence : Nat) : ParseM NodeId := do
  let first ← g.unary
  (binaryLoop g precedence).run first

end GoSource.Grammar
