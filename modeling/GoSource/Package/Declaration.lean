import GoSource.Package.TypeExpr
import GoSource.Package.Value
import GoSource.Typing.Relation

/-!
# Declarations

How the declarations of a file give their names a meaning.

* `Meanings.typeSpec`, `Meanings.valueSpec`, `Meanings.function`: by kind of declaration.
* `Meanings.resolve`: any declaration.  Its fault is recorded once and does not reach those who use it.
* `Meanings.method`: methods, which belong to their receiver.
-/

namespace GoSource

namespace ResolveM

/-- Changes what is known about a declared entity. -/
def update (name : NodeId) (f : Object → Object) : ResolveM Unit :=
  modify fun pkg => { pkg with objects := pkg.objects.modify name f }

/-- Whether a value may not be stored under a declared type.  An invalid declared type takes every value. -/
def mismatches (value declared : TypeId) : ResolveM Bool := do
  let tt ← types
  return !tt.isInvalid declared && !tt.assignable value declared

/-- Gives a type whose declaration failed the invalid type, so that its users do not report it again. -/
def poison (name : NodeId) : ResolveM Unit := do
  match (← get).objects.get? name with
  | none => return
  | some obj =>
      match obj.typ with
      | none => update name ({ · with typ := some TypeTable.invalid })
      | some t =>
          let tt ← types
          if (tt.pkgPath? t).isSome ∧ (tt.underlying? t).isNone then
            build (TypeTable.setUnderlying t TypeTable.invalid)

end ResolveM

namespace Meanings

open ResolveM

/-- A type declaration binds its type, an alias takes over the type it is declared with. -/
def typeSpec (m : Meanings) (entry : Entry) : ResolveM Unit := do
  let meaning ← m.type (← part entry.spec 1)
  match (← get).objects.get? entry.name with
  | none => return
  | some obj =>
      match obj.typ with
      | none => update entry.name ({ · with typ := some meaning })
      | some t =>
          if ((← types).underlying? meaning).isNone then fail entry.name (.recursiveType obj.name)
          build (TypeTable.setUnderlying t meaning)

/-- A constant takes the declared type if there is one, and else that of its value. -/
def constantDecl (m : Meanings) (declared : Option TypeId) (name value : NodeId) : ResolveM Unit := do
  let (v, t) ← m.constant value
  match declared with
  | none => update name ({ · with value := some v, typ := some t })
  | some d =>
      let tt ← types
      if ← mismatches t d then fail value (.constantMismatch v.literal (tt.spell t) (tt.spell d))
      update name ({ · with value := some { v with kind := tt.kind d }, typ := some d })

/-- A variable takes the declared type if there is one, and else the default type of its value. -/
def variableDecl (m : Meanings) (declared : Option TypeId) (name : NodeId) (value : Option NodeId) :
    ResolveM Unit := do
  let inferred ←
    match value with
    | some v => pure ((← m.value v).map fun t => (v, t))
    | none => pure none
  let typ ←
    match declared, inferred with
    | some d, some (v, t) => do
        if ← mismatches t d then
          let tt ← types
          fail v (.variableMismatch ((← tree).render v) (tt.spell t) (tt.spell d))
        pure (some d)
    | some d, none => pure (some d)
    | none, some (v, t) => some <$> defaultType v t
    | none, none => pure none
  update name ({ · with typ })

/-- The declarations of constants, one value a name. -/
def constantDecls (m : Meanings) (spec : NodeId) (declared : Option TypeId) (names values : List NodeId) :
    ResolveM Unit := do
  if values.length < names.length ∨ values.isEmpty then fail spec .missingInitializer
  if names.length < values.length then fail spec .extraInitializer
  (names.zip values).forM fun (name, value) => m.constantDecl declared name value

/-- The declarations of variables, with one value a name or none at all. -/
def variableDecls (m : Meanings) (spec : NodeId) (declared : Option TypeId) (names values : List NodeId) :
    ResolveM Unit := do
  if !values.isEmpty && values.length ≠ names.length then
    fail spec (.countMismatch names.length values.length)
  names.zipIdx.forM fun (name, i) => m.variableDecl declared name values[i]?

/-- A declaration of constants or variables. -/
def valueSpec (m : Meanings) (entry : Entry) : ResolveM Unit := do
  let tree ← tree
  let items (place : Nat) : List NodeId := (tree.part? entry.spec place).elim [] tree.present
  let declared ←
    match tree.part? entry.spec 1 with
    | some t => some <$> m.type t
    | none => pure none
  if entry.role = .constant then m.constantDecls entry.spec declared (items 0) (items 2)
  else m.variableDecls entry.spec declared (items 0) (items 2)

/-- A function declaration.  `init`, and `main` in the package `main`, take and return nothing. -/
def function (m : Meanings) (entry : Entry) : ResolveM Unit := do
  let signature ← m.type (← part entry.spec 2)
  let pkg ← get
  match pkg.objects.get? entry.name with
  | none => return
  | some obj =>
      let isEntryPoint := obj.name == "init" || (obj.name == "main" && pkg.path == "main")
      let takesOrReturns := 0 < pkg.types.inputCount signature || 0 < pkg.types.outputCount signature
      if isEntryPoint && takesOrReturns then fail entry.name (.entryPointSignature obj.name)
      update entry.name ({ · with typ := some signature })

/-- Resolves a declaration by its role. -/
def byRole (m : Meanings) (entry : Entry) : ResolveM Unit :=
  match entry.role with
  | .type => m.typeSpec entry
  | .constant | .variable => m.valueSpec entry
  | .function => m.function entry
  | .builtin | .package => return

/-- Resolves a declaration that is pending.  A type whose declaration is at fault becomes invalid. -/
def resolve (m : Meanings) (entry : Entry) : ResolveM Unit := do
  if (← get).progress? entry.spec ≠ some .pending then return
  modify (·.setProgress entry.spec .resolving)
  let outcome ← attempt (m.byRole entry)
  modify (·.setProgress entry.spec .done)
  match outcome with
  | .ok () => return
  | .error (.declaration d) => do
      if entry.role = .type then poison entry.name
      record d
  | .error failure => throw failure

/-! ### Methods -/

/-- The declared type that a receiver of a given name denotes. -/
def receiverType (base : NodeId) (name : String) : ResolveM TypeId := do
  let pkg ← get
  match pkg.declared? name with
  | some entry =>
      let denoted? := if entry.role = .type then (pkg.objects.get? entry.name).bind Object.typ else none
      match denoted?.filter fun t => (pkg.types.pkgPath? t).isSome with
      | some t => return t
      | none => fail base (.invalidReceiver name)
  | none =>
      if (pkg.predeclared? name).isSome then fail base (.foreignReceiver name)
      else fail base (.undefined name)

/-- The name of a receiver's type, without the pointer. -/
def receiverBase (recv : NodeId) : ResolveM NodeId := do
  let tree ← tree
  match tree.present recv with
  | [field] => do
      let typ ← part field 1
      let base ← if tree.op typ = .op .mul then part typ 0 else pure typ
      if tree.op base ≠ .lit .ident then fail base (.invalidReceiver (tree.render base))
      return base
  | [] => fail recv .noReceiver
  | _ => fail recv .multipleReceivers

/-- Adds a method of a given signature to its receiver. -/
def addMethod (decl nameNode : NodeId) (receiver : String) (t signature : TypeId) : ResolveM Unit := do
  let name := (← tree).literal nameNode
  if (← get).methods.contains (receiver, name) then fail nameNode (.methodRedeclared receiver name)
  modify fun pkg => { pkg with methods := (receiver, name) :: pkg.methods }
  let pkgPath := (← get).methodPath name
  buildAt nameNode (TypeTable.addMethod t { name, pkgPath, typ := signature })
  modify fun pkg =>
    { pkg with
        objects := pkg.objects.insert nameNode
          { name, role := .function, typ := some signature, decl := some decl } }

/-- A method declaration.  The receiver is a declared type of this package, or a pointer to one, and stands for
neither a pointer nor an interface.  Methods of an invalid receiver, or with an invalid signature, are
dropped. -/
def method (m : Meanings) (decl : NodeId) : ResolveM Unit := do
  let recv ← part decl 0
  let nameNode ← part decl 1
  let signatureNode ← part decl 2
  let tree ← tree
  if tree.op nameNode ≠ .lit .ident then fail nameNode .genericMethod
  let base ← receiverBase recv
  let receiver := tree.literal base
  let t ← receiverType base receiver
  match (← types).kind t with
  | .invalid => return
  | .pointer | .interface => fail base (.pointerReceiver receiver)
  | _ => do
      let signature ← m.type signatureNode
      if !(← types).isInvalid signature then addMethod decl nameNode receiver t signature

end Meanings

end GoSource
