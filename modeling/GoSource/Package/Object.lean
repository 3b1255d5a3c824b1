import GoSource.Tree.Basic
import GoSource.Typing.Construct

/-!
# Declared entities

An `Object` is what a name stands for: its role, its type and, for constants, its value.

`newUniverse` makes the scope around every package: the names that need no declaration.
-/

namespace GoSource

/-- What a name can stand for. -/
inductive Role where
  | builtin | constant | function | package | type | variable
  deriving DecidableEq, Repr, Inhabited

/-- A role in words. -/
def Role.label : Role → String
  | .builtin => "built-in function"
  | .constant => "constant"
  | .function => "func"
  | .package => "package"
  | .type => "type"
  | .variable => "variable"

/-- The value of a constant.  There is no arithmetic on constants, so it is a literal's text. -/
structure ConstValue where
  /-- The kind, untyped for plain literals. -/
  kind : Kind
  /-- The literal. -/
  literal : String
  deriving DecidableEq, Repr, Inhabited

/-- A declared entity. -/
structure Object where
  /-- Its name. -/
  name : String
  /-- What the name stands for. -/
  role : Role
  /-- Its type, once known. -/
  typ : Option TypeId := none
  /-- Its value, for constants, once known. -/
  value : Option ConstValue := none
  /-- The node that declares it; predeclared entities have none. -/
  decl : Option NodeId := none
  deriving DecidableEq, Repr, Inhabited

namespace Object

/-- A type that needs no declaration. -/
def predeclaredType (name : String) (typ : TypeId) : Object :=
  { name, role := .type, typ := some typ }

/-- A truth value. -/
def truth (name : String) : Object :=
  { name, role := .constant, typ := some (TypeTable.basic .untypedBool)
    value := some { kind := .untypedBool, literal := name } }

/-- The name of no value. -/
def nil : Object :=
  { name := "nil", role := .variable, typ := some (TypeTable.basic .untypedNil) }

/-- A function of the language itself. -/
def builtin (name : String) (inputs outputs : Nat) (variadic : Bool) : TypeM Object := do
  return { name, role := .builtin, typ := some (← TypeTable.newBuiltin name inputs outputs variadic) }

end Object

/-- The predeclared types that bear the name of their kind. -/
def predeclaredKinds : List Kind :=
  Kind.basics.filter fun k => !k.isUntyped && k != .unsafePointer

/-- The functions of the language itself: name, number of parameters, number of results, and whether they take
any number of further arguments. -/
def builtins : List (String × Nat × Nat × Bool) :=
  [("append", 1, 1, true), ("cap", 1, 1, false), ("close", 1, 0, false), ("complex", 2, 1, false),
   ("copy", 2, 1, false), ("delete", 2, 0, false), ("imag", 1, 1, false), ("len", 1, 1, false),
   ("make", 1, 1, true), ("new", 1, 1, false), ("panic", 1, 0, false), ("print", 0, 0, true),
   ("println", 0, 0, true), ("real", 1, 1, false), ("recover", 0, 1, false)]

/-- The declared type `error`, an interface with the one method `Error() string`. -/
def newErrorType : TypeM TypeId := do
  let signature ← TypeTable.newFunc [] [TypeTable.basic .string] false
  let interface ← TypeTable.newInterface [] [{ name := "Error", pkgPath := "", typ := signature }]
  let error ← TypeTable.newNamed "" "error"
  TypeTable.setUnderlying error interface
  return error

/-- The names that need no declaration. -/
def newUniverse : TypeM (List Object) := do
  let any ← TypeTable.newInterface [] []
  let error ← newErrorType
  let functions ← builtins.mapM fun (name, inputs, outputs, variadic) =>
    Object.builtin name inputs outputs variadic
  return predeclaredKinds.map (fun k => .predeclaredType k.name (TypeTable.basic k))
    ++ [.predeclaredType "byte" (TypeTable.basic .uint8), .predeclaredType "rune" (TypeTable.basic .int32),
        .predeclaredType "any" any, .predeclaredType "error" error,
        .truth "true", .truth "false", .nil]
    ++ functions

end GoSource
