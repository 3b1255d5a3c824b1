import GoSource.Grammar.Expression

/-!
# Statements

Simple statements, the statements with a header, and clauses.  In a header a brace after a type name opens
the block, not a composite literal.
-/

namespace GoSource.Grammar

/-- A simple statement, or the range clause that only a `for` header allows. -/
inductive Simple where
  /-- A statement. -/
  | stmt (node : NodeId)
  /-- The assignment of a range clause and what it ranges over. -/
  | range (assign : Child) (x : NodeId)

variable (g : Rules)

/-- The right side of an assignment to `lhs`; the operator was passed over. -/
def finishAssign (atom : Atom) (lhs : List Child) : ParseM NodeId := do
  let x ← wrapExprs lhs
  let pos ← startOf x
  let rhs ← g.exprs
  let y ← wrapExprs rhs
  add { atom with pos } (.binary (some x) (some y))

/-- What a range clause assigns to: at most two of the expressions before its operator `atom`. -/
def rangeTargets (atom : Atom) (lhs : List Child) : ParseM (Child × Child) := do
  if 2 < lhs.length then
    let _ ← complain atom.pos (.unexpected (.op .comma))
  return (lhs.head?.join, (lhs[1]?).join)

/-- The range clause after its assignment operator; the current token is `range`. -/
def rangeClause (atom : Atom) (lhs : List Child) : ParseM Simple := do
  next
  let x ← g.expr
  let (key, value) ← rangeTargets atom lhs
  let assign ← add atom (.binary key value)
  return .range (some assign) x

/-- An expression, a send, an increment, an assignment or a short declaration; with `rangeOk` also a range
clause. -/
def simple (rangeOk : Bool) : ParseM Simple := do
  let lhs ← g.exprs
  let t ← tok
  if t.isAssign then
    let atom ← makeAtom t
    next
    if rangeOk ∧ (t = .op .define ∨ t = .op .assign) ∧ (← tok) = .kw .range then rangeClause g atom lhs
    else .stmt <$> finishAssign g atom lhs
  else if t = .op .arrow then
    let atom ← makeAtom (.op .arrow)
    let channel ← wrapExprs lhs
    let pos ← startOf channel
    next
    let value ← g.expr
    .stmt <$> add { atom with pos } (.binary (some channel) (some value))
  else if t = .op .inc ∨ t = .op .dec then
    let atom ← makeAtom t
    next
    let x ← wrapExprs lhs
    .stmt <$> add atom (.unary (some x))
  else .stmt <$> wrapExprs lhs

/-- A simple statement. -/
def simpleStmt : ParseM NodeId := do
  match ← simple g false with
  | .stmt node => return node
  | .range _ x => return x

/-- The header of an `if` or a `switch` that is not empty: an optional statement, and what `last` parses, which
is optional after a semicolon. -/
def header (last : ParseM NodeId) : ParseM (Child × Child) := do
  let first ← if (← tok) = .op .semicolon then pure none else some <$> simpleStmt g
  if (← tok) ≠ .op .semicolon then return (none, first)
  next
  let second ← if (← tok) = .op .lbrace then pure none else some <$> last
  return (first, second)

/-- The header of an `if`: an optional statement and the condition. -/
def ifHeader : ParseM (Child × NodeId) := do
  if (← tok) = .op .lbrace then return (none, ← makeBad .missingCondition)
  match ← header g g.expr with
  | (init, some cond) => return (init, cond)
  | (init, none) => return (init, ← makeBad .missingCondition)

/-- What follows the block of an `if`: nothing, or `else` and another `if` or a block. -/
def elseBranch : ParseM Child := do
  if (← tok) ≠ .kw .else_ then return none
  next
  match ← tok with
  | .kw .if_ => some <$> g.ifStmt
  | .op .lbrace => some <$> block g
  | _ => some <$> makeBad (.expecting (.kw .if_))

/-- An `if` statement. -/
def ifStmt : ParseM NodeId := do
  let atom ← makeAtom (.kw .if_)
  next
  let (init, cond) ← withComposite false (ifHeader g)
  let body ← block g
  let otherwise ← elseBranch g
  add atom (.list [init, some cond, some body, otherwise])

/-- The header of a `for`. -/
inductive ForHeader where
  /-- Statement before the loop, condition, statement after each round. -/
  | clauses (init cond post : Child)
  /-- The assignment of a range clause and what it ranges over. -/
  | range (assign : Child) (x : NodeId)

/-- The header of a `for` from its second clause on; `first` is the first one. -/
def forClauses (first : Child) : ParseM ForHeader := do
  if (← tok) ≠ .op .semicolon then return .clauses none first none
  next
  let cond ← if (← tok) = .op .semicolon then pure none else some <$> g.expr
  expect (.op .semicolon)
  let post ← if (← tok) = .op .lbrace then pure none else some <$> simpleStmt g
  return .clauses first cond post

/-- The header of a `for`. -/
def forHeader : ParseM ForHeader := do
  match ← tok with
  | .op .lbrace => return .clauses none none none
  | .kw .range =>
      next
      return .range none (← g.expr)
  | .op .semicolon => forClauses g none
  | _ =>
      match ← simple g true with
      | .range assign x => return .range assign x
      | .stmt node => forClauses g (some node)

/-- A `for` statement. -/
def forStmt : ParseM NodeId := do
  let atom ← makeAtom (.kw .for_)
  next
  let header ← withComposite false (forHeader g)
  let body ← block g
  match header with
  | .clauses init cond post => add atom (.list [init, cond, post, some body])
  | .range assign x => add { atom with token := .kw .range } (.list [assign, some x, some body])

/-- Whether `c` is the assertion `x.(type)`. -/
def isTypeGuard (t : Tree) (c : Child) : Bool :=
  c.any fun n => t.op n = .tag .typeAssert && (t.part? n 1).any (t.op · = .kw .type)

/-- Whether the tag of a switch asks for a type: `x.(type)` or `v := x.(type)`. -/
def isTypeSwitch (t : Tree) (n : NodeId) : Bool :=
  match t.op n with
  | .tag .typeAssert => isTypeGuard t (some n)
  | .op .define => isTypeGuard t (t.part? n 1)
  | _ => false

/-- One clause of a switch or select; `head` parses what follows `case`. -/
def clause (head : ParseM NodeId) (keyword : Token) : ParseM NodeId := do
  let atom ← makeAtom keyword
  next
  let x ← if keyword = .kw .case_ then some <$> head else pure none
  let bodyAtom ← makeAtom (.tag .block)
  expect (.op .colon)
  let stmts ← stmtList g []
  let body ← add bodyAtom (.list stmts)
  add atom (.binary x (some body))

/-- A clause after another.  A token that starts no clause is bad. -/
def clausesLoop (head : ParseM NodeId) : Loop (List Child) where
  more t := t != .op .rbrace && t != .eof
  round kids := do
    let t ← tok
    if t = .kw .case_ ∨ t = .kw .default_ then
      return .again (kids ++ [some (← clause g head t)])
    else return .again (kids ++ [some (← parseBad (.expecting (.kw .case_)))])

/-- The clauses of a switch or select between braces. -/
def clauses (head : ParseM NodeId) : ParseM NodeId := do
  let atom ← makeAtom (.tag .block)
  let opened ← enter (.op .lbrace)
  let kids ← withComposite true ((clausesLoop g head).run opened)
  add atom (.list (kids ++ (← leave (.op .rbrace))))

/-- The header of a `switch`: an optional statement and an optional tag. -/
def switchHeader : ParseM (Child × Child) := do
  if (← tok) = .op .lbrace then return (none, none)
  header g (simpleStmt g)

/-- A `switch` statement. -/
def switchStmt : ParseM NodeId := do
  let atom ← makeAtom (.kw .switch)
  next
  let (init, tag) ← withComposite false (switchHeader g)
  let tree := (← get).tree
  let token := if tag.any (isTypeSwitch tree) then .tag .typeSwitch else atom.token
  let body ← clauses g do listExprs (← g.exprs)
  add { atom with token } (.list [init, tag, some body])

/-- A `select` statement. -/
def selectStmt : ParseM NodeId := do
  let atom ← makeAtom (.kw .select)
  next
  let body ← clauses g (simpleStmt g)
  add atom (.unary (some body))

/-- What a function returns, if anything stands before the end of the statement. -/
def returned : ParseM (List Child) := do
  match ← tok with
  | .op .semicolon | .op .rbrace | .eof => return []
  | _ => g.exprs

/-- A `return` statement. -/
def returnStmt : ParseM NodeId := do
  let atom ← makeAtom (.kw .return_)
  next
  let results ← returned g
  add atom (.list results)

/-- A jump with an optional label. -/
def jumpStmt (keyword : Keyword) : ParseM NodeId := do
  let atom ← makeAtom (.kw keyword)
  next
  let label ← if (← tok) = .lit .ident then some <$> parseIdent else pure none
  add atom (.unary label)

/-- A `go` or `defer` statement. -/
def deferredCall (keyword : Keyword) : ParseM NodeId := do
  let atom ← makeAtom (.kw keyword)
  next
  let call ← g.expr
  add atom (.unary (some call))

/-- A labelled statement; the current token is the colon after `ident`. -/
def labeledStmt (ident : Atom) : ParseM NodeId := do
  let atom := { ← makeAtom (.tag .label) with pos := ident.pos }
  let name ← add ident .leaf
  next
  let stmt ← g.stmt?
  add atom (.binary (some name) stmt)

/-- A statement that starts with an identifier. -/
def identStmt : ParseM NodeId := do
  let ident ← makeAtom (.lit .ident)
  next
  if (← tok) = .op .colon then labeledStmt g ident
  else
    putBack ident
    simpleStmt g

/-- Tokens that open an expression. -/
def startsExpr : Token → Bool
  | .lit _ => true
  | .op .arrow | .op .lparen | .op .lbrack => true
  | .op o => isUnary o
  | .kw .func | .kw .struct | .kw .map | .kw .chan | .kw .interface => true
  | _ => false

end GoSource.Grammar
