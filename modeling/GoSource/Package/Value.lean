import GoSource.Package.Meaning

/-!
# Initializers

* `Meanings.constantExpr`: constants are literals, other constants, and these in parentheses.
* `Meanings.valueExpr`: the type of an initializer where a look at it is enough.
* `defaultKind?`: the type that a variable takes from an untyped value.
-/

namespace GoSource

/-- The kind of a literal. -/
def literalKind? : Token → Option Kind
  | .lit .int => some .untypedInt
  | .lit .float => some .untypedFloat
  | .lit .imag => some .untypedComplex
  | .lit .char => some .untypedRune
  | .lit .string => some .untypedString
  | _ => none

/-- The kind of the variables that an untyped value makes when nothing else is said. -/
def defaultKind? : Kind → Option Kind
  | .untypedBool => some .bool
  | .untypedInt => some .int
  | .untypedRune => some .int32
  | .untypedFloat => some .float64
  | .untypedComplex => some .complex128
  | .untypedString => some .string
  | _ => none

namespace Meanings

open ResolveM

/-- The value of a named constant. -/
def constantName (m : Meanings) (id : NodeId) : ResolveM (ConstValue × TypeId) := do
  let obj ← m.object id
  if obj.role ≠ .constant then fail id (.notConstantObject obj.name obj.role)
  match obj.value, obj.typ with
  | some v, some t => return (v, t)
  | _, _ => fail id (.initializerWithoutValue obj.name)

/-- The value and the type of a constant expression. -/
def constantExpr (m : Meanings) (id : NodeId) : ResolveM (ConstValue × TypeId) := do
  let tree ← tree
  if tree.isBad id then fail id .invalidInitializer
  let op := tree.op id
  if let some kind := literalKind? op then
    return ({ kind, literal := tree.literal id }, TypeTable.basic kind)
  match op with
  | .lit .ident => m.constantName id
  | .op .lparen => m.constant (← part id 0)
  | .op .period => fail id (.qualifiedConstant (tree.render id))
  | .tag .call => fail id (.constantConversion (tree.render id))
  | .op _ => fail id (.constantFolding (tree.render id))
  | _ => fail id (.notConstant (tree.render id))

/-- The type of a named value. -/
def valueName (m : Meanings) (id : NodeId) : ResolveM (Option TypeId) := do
  let obj ← m.object id
  match obj.role with
  | .constant | .variable | .function => return obj.typ
  | .builtin => fail id (.builtinNotCalled obj.name)
  | .type => fail id (.typeAsValue obj.name)
  | .package => fail id (.packageAsValue obj.name)

/-- The type of an initializer, if it is a literal or a name. -/
def valueExpr (m : Meanings) (id : NodeId) : ResolveM (Option TypeId) := do
  let op := (← tree).op id
  if let some kind := literalKind? op then return some (TypeTable.basic kind)
  match op with
  | .lit .ident => m.valueName id
  | .op .lparen => m.value (← part id 0)
  | _ => return none

end Meanings

/-- The type of a variable that is initialized with a value of type `t`. -/
def ResolveM.defaultType (value : NodeId) (t : TypeId) : ResolveM TypeId := do
  let kind := (← types).kind t
  if kind = .untypedNil then fail value .untypedNil
  return (defaultKind? kind).elim t TypeTable.basic

end GoSource
