import GoSource.Grammar.Rules

/-!
# Parameters and signatures

In a parameter list a lone identifier is a name or a type, and which of the two shows only at the end of the
list: if some entry has both a name and a type, all lone identifiers are names of the next type.

* `groupParams` makes fields of the entries of a list.
* `params`, `signature`, `results` parse the lists of functions and of type parameters.
-/

namespace GoSource

/-- An entry of a parameter list before grouping: a name, a type, or both.  A lone identifier counts as a
name. -/
structure ParamEntry where
  /-- The name. -/
  name : Child := none
  /-- The type. -/
  typ : Child := none
  deriving DecidableEq, Repr, Inhabited

namespace Grammar

/-- Fields whose only part is a type. -/
def typeFields (types : List NodeId) : Build (List Child) :=
  types.mapM fun t => some <$> Tree.addField [] t none

/-- Groups the entries of a list.  When the list is `named`, lone identifiers wait in `pending` for the next
type and become its names; those that no type follows are types themselves. -/
def groupFrom (named : Bool) (pending : List NodeId) : List ParamEntry → Build (List Child)
  | [] => typeFields pending
  | { name, typ := some typ } :: rest => do
      let field ← Tree.addField (pending ++ name.toList) typ none
      return some field :: (← groupFrom named [] rest)
  | { name := some name, typ := none } :: rest =>
      if named then groupFrom named (pending ++ [name]) rest
      else do
        let field ← Tree.addField [] name none
        return some field :: (← groupFrom named pending rest)
  | { name := none, typ := none } :: rest => groupFrom named pending rest

/-- The fields of a parameter list. -/
def groupParams (entries : List ParamEntry) : Build (List Child) :=
  groupFrom (entries.any fun e => e.name.isSome && e.typ.isSome) [] entries

variable (g : Rules)

/-- One term of a union: a type, or all types that share its underlying type. -/
def typeTerm : ParseM NodeId := do
  if (← tok) = .op .tilde then
    let atom ← makeAtom (.op .tilde)
    next
    let t ← g.type
    add atom (.unary (some t))
  else g.type

/-- A term after each bar. -/
def unionLoop : Loop NodeId where
  more t := t == .op .or
  round x := do
    let atom ← makeAtom (.op .or)
    let pos ← startOf x
    next
    let y ← typeTerm g
    return .again (← add { atom with pos } (.binary (some x) (some y)))

/-- A union of terms, nested to the left. -/
def union : ParseM NodeId := do
  let first ← typeTerm g
  (unionLoop g).run first

/-- The type of a parameter: the rest of the arguments, a constraint, or a plain type. -/
def paramType (typeParams : Bool) : ParseM NodeId := do
  if (← tok) = .op .ellipsis then
    let atom ← makeAtom (.op .ellipsis)
    next
    let elem ← g.type
    add atom (.unary (some elem))
  else if typeParams then union g
  else g.type

/-- The rest of an array or slice type after its length. -/
def arrayTail (atom : Atom) (length : Child) : ParseM NodeId := do
  expect (.op .rbrack)
  let elem ← g.type
  add atom (.binary length (some elem))

/-- Tokens that open a type. -/
def startsType : Token → Bool
  | .lit .ident => true
  | .op .lbrack | .op .mul | .op .arrow | .op .lparen => true
  | .kw .struct | .kw .func | .kw .interface | .kw .map | .kw .chan => true
  | _ => false

/-- A type after each comma in brackets, the last comma apart. -/
def bracketLoop : Loop (List Child) where
  more t := t == .op .comma
  round args := do
    next
    if (← tok) = .op .rbrack then return .done args
    return .again (args ++ [some (← g.type)])

/-- Type arguments as one part of a node; a single argument is that part. -/
def argumentsPart (pos : Pos) (args : List Child) : ParseM Child :=
  match args with
  | [only] => return only
  | _ => some <$> add (Tree.tagAt (.tag .exprs) pos) (.list args)

/-- An identifier before a bracket: the name of an array or slice parameter, or an instantiated type. -/
def bracketedParam (ident : Atom) : ParseM ParamEntry := do
  let bracket ← makeAtom (.tag .array)
  next
  let t ← tok
  if t = .op .rbrack ∨ t = .op .ellipsis then
    let length ← if t = .op .ellipsis then some <$> parseAtom (.op .ellipsis) else pure none
    let name ← add ident .leaf
    return { name := some name, typ := some (← arrayTail g bracket length) }
  let args ← withComposite true do
    let first ← g.expr
    (bracketLoop g).run [some first]
  expect (.op .rbrack)
  let name ← add ident .leaf
  if args.length = 1 ∧ startsType (← tok) then
    let elem ← g.type
    let typ ← add bracket (.binary args.head?.join (some elem))
    return { name := some name, typ := some typ }
  let pos ← startOf name
  let arg ← argumentsPart pos args
  let typ ← add { bracket with token := .tag .index, pos } (.binary (some name) arg)
  return { typ := some typ }

/-- One entry of a parameter list that ends with `close`. -/
def paramEntry (close : Token) (typeParams : Bool) : ParseM ParamEntry := do
  if (← tok) ≠ .lit .ident then return { typ := some (← paramType g typeParams) }
  let ident ← makeAtom (.lit .ident)
  next
  let t ← tok
  if t = .op .comma ∨ t = close then
    return { name := some (← add ident .leaf) }
  else if t = .op .period then
    putBack ident
    return { typ := some (← paramType g typeParams) }
  else if t = .op .lbrack then bracketedParam g ident
  else
    let name ← add ident .leaf
    return { name := some name, typ := some (← paramType g typeParams) }

/-- The entries of a list and the commas after them, up to `close`.  A token that starts no entry is bad. -/
def paramsLoop (close : Token) (typeParams : Bool) : Loop (List ParamEntry × List Child) where
  more t := t != .eof && t != close
  round := fun (entries, bads) => do
    let before ← left
    let entries := entries ++ [← paramEntry g close typeParams]
    if (← tok) = .op .comma then
      next
      return .again (entries, bads)
    else if (← left) = before then
      return .again (entries, bads ++ [some (← parseBad (.expecting close))])
    else return .done (entries, bads)

/-- The entries of a list up to and over `close`, as one node.  The opening token was passed over; `bads` holds
what stood in its place. -/
def paramsBody (atom : Atom) (bads : List Child) (close : Token) (typeParams : Bool) : ParseM NodeId := do
  let (entries, bads) ← withComposite true ((paramsLoop g close typeParams).run ([], bads))
  let bads := bads ++ (← leave close)
  let fields ← build (groupParams entries)
  add atom (.list (fields ++ bads))

/-- A list of parameters between `opening` and `close`, tagged `tag`. -/
def params (opening close : Token) (tag : NodeTag) (typeParams : Bool) : ParseM NodeId := do
  let atom ← makeAtom (.tag tag)
  let bads ← enter opening
  paramsBody g atom bads close typeParams

/-- The results of a function: a list in parentheses, a single type, or nothing. -/
def results : ParseM NodeId := do
  if (← tok) = .op .lparen then params g (.op .lparen) (.op .rparen) .results false
  else
    let atom := Tree.tagAt (.tag .results) (← here)
    match ← g.type? with
    | some t => add atom (.list [some (← build (Tree.addField [] t none))])
    | none => add atom (.list [])

/-- Parameters and results. -/
def signature (atom : Atom) : ParseM NodeId := do
  let params ← params g (.op .lparen) (.op .rparen) .params false
  let results ← results g
  add atom (.binary (some params) (some results))

end Grammar

end GoSource
