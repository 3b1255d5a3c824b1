import GoSource.Grammar.State

/-!
# Nonterminals

The productions of the grammar refer to one another in cycles.  `Rules` holds one action for each nonterminal
that a cycle passes through; every production is a function of such a record, and the cycles are closed in
one place.
-/

namespace GoSource.Grammar

/-- The nonterminals through which productions refer to one another. -/
structure Rules where
  /-- A binary expression whose operators bind at least as tightly as a given precedence. -/
  binary : Nat → ParseM NodeId
  /-- An expression without binary operators at its top. -/
  unary : ParseM NodeId
  /-- A type, if one starts here. -/
  type? : ParseM (Option NodeId)
  /-- A statement, if one starts here. -/
  stmt? : ParseM (Option NodeId)
  /-- An `if` statement. -/
  ifStmt : ParseM NodeId
  /-- The elements of a composite literal that has no type of its own. -/
  elements : ParseM NodeId

namespace Rules

/-- An expression. -/
def expr (g : Rules) : ParseM NodeId :=
  g.binary 1

/-- A type, or a bad node in its place.  A token that can follow a type stays. -/
def type (g : Rules) : ParseM NodeId := do
  match ← g.type? with
  | some t => return t
  | none =>
      match ← tok with
      | .op .rparen | .op .rbrack | .op .rbrace | .op .semicolon | .op .comma | .eof =>
          makeBad .expectingType
      | _ => parseBad .expectingType

/-- An expression after each comma. -/
def exprsLoop (g : Rules) : Loop (List Child) where
  more t := t == .op .comma
  round items := do
    next
    return .again (items ++ [some (← g.expr)])

/-- Expressions separated by commas, at least one. -/
def exprs (g : Rules) : ParseM (List Child) := do
  let first ← g.expr
  g.exprsLoop.run [some first]

end Rules

/-- The atom of a construct tagged `tag` that starts where `first` does, or here if that is absent. -/
def atomFrom (tag : NodeTag) (first : Child) : ParseM Atom := do
  let atom ← makeAtom (.tag tag)
  match first with
  | some first => return { atom with pos := ← startOf first }
  | none => return atom

/-- A list of expressions as one node, even if there is only one of them. -/
def listExprs (items : List Child) : ParseM NodeId := do
  add (← atomFrom .exprs items.head?.join) (.list items)

/-- A list of expressions as one node; a single expression is that node. -/
def wrapExprs (items : List Child) : ParseM NodeId :=
  match items with
  | [some only] => return only
  | _ => listExprs items

end GoSource.Grammar
