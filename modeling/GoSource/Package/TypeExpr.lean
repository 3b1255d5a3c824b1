import GoSource.Literal.Integer
import GoSource.Package.Meaning

/-!
# Type expressions

`Meanings.typeExpr` is the type that a type expression denotes.  A type that is built from an invalid one is
invalid too, without a fault of its own.
-/

namespace GoSource.Meanings

open ResolveM

/-- The type that a part of a composite type denotes, if it is valid. -/
def component (m : Meanings) (id : NodeId) (place : Nat) : ResolveM (Option TypeId) := do
  let t ← m.type (← part id place)
  return if (← types).isInvalid t then none else some t

/-- The type that a name denotes. -/
def typeName (m : Meanings) (id : NodeId) : ResolveM TypeId := do
  let obj ← m.object id
  if obj.role ≠ .type then fail id (.notAType obj.name)
  match obj.typ with
  | some t => return t
  | none => fail id (.recursiveType obj.name)

/-! ### Arrays -/

/-- The literal of an array length: written there, or the value of an integer constant. -/
def lengthLiteral (m : Meanings) (id : NodeId) : ResolveM String := do
  let tree ← tree
  match tree.op id with
  | .lit .int => return tree.literal id
  | .op .ellipsis => fail id .countedArray
  | .lit .ident => do
      let obj ← m.object id
      match obj.role, obj.value with
      | .constant, some v => if v.kind.isInteger then return v.literal else fail id (.lengthNotInteger obj.name)
      | _, _ => fail id (.lengthNotInteger obj.name)
  | _ => fail id (.lengthNotLiteral (tree.render id))

/-- The length of an array. -/
def arrayLength (m : Meanings) (id : NodeId) : ResolveM Nat := do
  let literal ← m.lengthLiteral id
  match Literal.integerValue? literal with
  | some n => return n
  | none => fail id (.invalidLength literal)

/-- An array type, or a slice type if no length is written. -/
def arrayType? (m : Meanings) (id : NodeId) : ResolveM (Option TypeId) := do
  let elem? ← m.component id 1
  let length? ←
    match (← tree).part? id 0 with
    | some length => some <$> m.arrayLength length
    | none => pure none
  match elem?, length? with
  | some elem, some length => some <$> buildAt id (TypeTable.newArray elem length)
  | some elem, none => some <$> build (TypeTable.newSlice elem)
  | none, _ => return none

/-! ### Functions -/

/-- The types of the parameters that a field declares, one a name, and whether the field is variadic.  Only
the final parameter may be, and then it is a slice. -/
def fieldTypes (m : Meanings) (final : Bool) (field : NodeId) : ResolveM (List TypeId × Bool) := do
  let tree ← tree
  let count := (tree.part? field 0).elim 1 fun names => (tree.children names).length
  let typ ← part field 1
  if tree.op typ = .op .ellipsis then
    if !final || count ≠ 1 then fail typ .misplacedEllipsis
    let elem ← m.type (← part typ 0)
    if (← types).isInvalid elem then return ([elem], true)
    return ([← build (TypeTable.newSlice elem)], true)
  else return (List.replicate count (← m.type typ), false)

/-- The types of a list of fields, and whether it is variadic. -/
def fieldListTypes (m : Meanings) (mayBeVariadic : Bool) : List NodeId → ResolveM (List TypeId × Bool)
  | [] => return ([], false)
  | field :: rest => do
      let (first, isVariadic) ← m.fieldTypes (mayBeVariadic && rest.isEmpty) field
      let (others, restVariadic) ← m.fieldListTypes mayBeVariadic rest
      return (first ++ others, isVariadic || restVariadic)

/-- The types of a part of a signature, the parameters or the results. -/
def signaturePart (m : Meanings) (mayBeVariadic : Bool) (fields : Child) : ResolveM (List TypeId × Bool) := do
  let tree ← tree
  m.fieldListTypes mayBeVariadic (fields.elim [] fun list => (tree.present list).filter (!tree.isBad ·))

/-- The type of a signature, if all its parts are valid. -/
def signature? (m : Meanings) (id : NodeId) : ResolveM (Option TypeId) := do
  let tree ← tree
  let (params, variadic) ← m.signaturePart true (tree.part? id 0)
  let (results, _) ← m.signaturePart false (tree.part? id 1)
  if (params ++ results).any (← types).isInvalid then return none
  some <$> buildAt id (TypeTable.newFunc params results variadic)

/-! ### Interfaces -/

/-- A member of an interface. -/
inductive Member where
  | method (m : Method)
  | embedded (t : TypeId)

/-- An interface embedded in another, if it is valid. -/
def embedded? (m : Meanings) (typ : NodeId) : ResolveM (Option TypeId) := do
  let op := (← tree).op typ
  if op = .op .or ∨ op = .op .tilde then fail typ .constraint
  let t ← m.type typ
  let tt ← types
  if (tt.underlying? t).isNone then fail typ (.recursiveType (tt.spell t))
  if tt.isInvalid t then return none
  if tt.kind t ≠ .interface then fail typ (.notAnInterface (tt.spell t))
  return some t

/-- A member of an interface, if its types are valid: a method if it has a name, an embedded interface if it
has none. -/
def member? (m : Meanings) (field : NodeId) : ResolveM (Option Member) := do
  let tree ← tree
  let typ ← part field 1
  match tree.part? field 0 with
  | some names => do
      let name := tree.literal (← part names 0)
      match ← m.signature? typ with
      | some t => return some (.method { name, pkgPath := (← get).methodPath name, typ := t })
      | none => return none
  | none => return (← m.embedded? typ).map .embedded

/-- The members of an interface, up to the first that is invalid. -/
def members? (m : Meanings) : List NodeId → ResolveM (Option (List Member))
  | [] => return some []
  | field :: rest => do
      match ← m.member? field with
      | some member => return (← m.members? rest).map (member :: ·)
      | none => return none

/-- An interface type, if all its members are valid. -/
def interfaceType? (m : Meanings) (id : NodeId) : ResolveM (Option TypeId) := do
  let tree ← tree
  match ← m.members? ((tree.present id).filter (!tree.isBad ·)) with
  | none => return none
  | some members =>
      let embedded := members.filterMap fun
        | .embedded t => some t
        | .method _ => none
      let methods := members.filterMap fun
        | .method m => some m
        | .embedded _ => none
      some <$> buildAt id (TypeTable.newInterface embedded methods)

/-! ### All type expressions -/

/-- A channel type. -/
def chanType? (m : Meanings) (id : NodeId) (dir : ChanDir) : ResolveM (Option TypeId) := do
  match ← m.component id 0 with
  | some elem => some <$> build (TypeTable.newChan elem dir)
  | none => return none

/-- A pointer type. -/
def pointerType? (m : Meanings) (id : NodeId) : ResolveM (Option TypeId) := do
  match ← m.component id 0 with
  | some elem => some <$> build (TypeTable.newPointer elem)
  | none => return none

/-- A map type. -/
def mapType? (m : Meanings) (id : NodeId) : ResolveM (Option TypeId) := do
  let key? ← m.component id 0
  let elem? ← m.component id 1
  match key?, elem? with
  | some key, some elem => some <$> build (TypeTable.newMap key elem)
  | _, _ => return none

/-- The type that a type expression denotes.  What the parser could not read is invalid. -/
def typeExpr (m : Meanings) (id : NodeId) : ResolveM TypeId := do
  let tree ← tree
  let orInvalid (t : Option TypeId) : TypeId := t.getD TypeTable.invalid
  if tree.isBad id then return TypeTable.invalid
  match tree.op id with
  | .lit .ident => m.typeName id
  | .op .lparen => m.type (← part id 0)
  | .op .mul => orInvalid <$> m.pointerType? id
  | .tag .array => orInvalid <$> m.arrayType? id
  | .kw .map => orInvalid <$> m.mapType? id
  | .tag .bothDir => orInvalid <$> m.chanType? id .both
  | .tag .sendDir => orInvalid <$> m.chanType? id .send
  | .tag .recvDir => orInvalid <$> m.chanType? id .recv
  | .kw .func => orInvalid <$> m.signature? id
  | .kw .interface => orInvalid <$> m.interfaceType? id
  | .op .period => fail id (.qualifiedType (tree.render id))
  | .kw .struct => fail id .structType
  | .tag .index => fail id .instantiation
  | _ => fail id (.notAType (tree.render id))

end GoSource.Meanings
