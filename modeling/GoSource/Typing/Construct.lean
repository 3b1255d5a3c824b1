import GoSource.Typing.Completion

/-!
# Building types

Each way of building a type from others answers with a handle.  A type that has been built before has the
handle it got then; only declared types are new each time.  A refused request adds no type.

* `TypeTable.new`: the table of the predeclared types.
* `newArray`, `newSlice`, `newPointer`, `newChan`, `newMap`, `newFunc`, `newInterface`, `newBuiltin`.
* `newNamed`, `setUnderlying`, `addMethod`: declared types, what they stand for, and their methods.
-/

namespace GoSource

namespace TypeTable

/-- The table of the invalid type and the predeclared types. -/
def new (target : Target) : TypeTable :=
  { target
    types := ((Kind.invalid :: Kind.basics).map fun k =>
      { shape := .basic k, short := k.name, layout := k.layout target }).toArray }

/-- Adds a type. -/
def add (shape : Shape) (layout : Layout) : TableM TypeId :=
  modifyGet fun tt =>
    (⟨tt.types.size⟩,
      { tt with types := tt.types.push { shape, short := tt.spellShape tt.short false shape, layout } })

/-- The type with a given shape. -/
def find? (tt : TypeTable) (shape : Shape) : Option TypeId :=
  (tt.types.findIdx? (·.shape = shape)).map TypeId.mk

/-- The type with a given shape, added if there is none yet. -/
def intern (shape : Shape) : TypeM TypeId := do
  let tt ← get
  match tt.find? shape with
  | some t => pure t
  | none => do
      let layout ← shape.layout tt.target fun part => completed part
      add shape layout

/-- An array type. -/
def newArray (elem : TypeId) (length : Nat) : TypeM TypeId :=
  intern (.array elem length)

/-- A slice type. -/
def newSlice (elem : TypeId) : TypeM TypeId :=
  intern (.slice elem)

/-- A pointer type. -/
def newPointer (elem : TypeId) : TypeM TypeId :=
  intern (.pointer elem)

/-- A channel type. -/
def newChan (elem : TypeId) (dir : ChanDir) : TypeM TypeId :=
  intern (.chan elem dir)

/-- A map type. -/
def newMap (key elem : TypeId) : TypeM TypeId :=
  intern (.map key elem)

/-- A function type.  The last parameter of a variadic one is a slice. -/
def newFunc (params results : List TypeId) (variadic : Bool) : TypeM TypeId := do
  let tt ← get
  if variadic ∧ params.getLast?.map tt.kind ≠ some .slice then throw .invalidVariadic
  intern (.func params results variadic)

/-- The type of a function of the language itself. -/
def newBuiltin (name : String) (inputs outputs : Nat) (variadic : Bool) : TypeM TypeId :=
  intern (.builtin name inputs outputs variadic)

/-! ### Interfaces -/

/-- The most methods that an interface may have. -/
def maxMethods : Nat :=
  65536

/-- The methods that an embedded type brings into an interface. -/
def embeddedMethods (tt : TypeTable) (t : TypeId) : Except TypeFault (List Method) :=
  match tt.underlyingShape? t with
  | none => .error (.incompleteEmbedded (tt.spell t))
  | some (.interface methods) => .ok methods
  | some _ => .error (.notAnInterface (tt.spell t))

/-- Adds a method to methods in order, the greatest first.  A method that is there already is not added again;
with another signature it is a conflict. -/
def appendMethod (sorted : List Method) (m : Method) : Except TypeFault (List Method) :=
  match sorted with
  | last :: _ =>
      if !last.sameName m then .ok (m :: sorted)
      else if last.typ = m.typ then .ok sorted
      else .error (.duplicateMethod m.qualifiedName)
  | [] => .ok [m]

/-- The methods of an interface, in order and each once. -/
def mergeMethods (tt : TypeTable) (embedded : List TypeId) (direct : List Method) :
    Except TypeFault (List Method) := do
  let inherited ← embedded.mapM tt.embeddedMethods
  let all := direct ++ inherited.flatten
  match all.find? fun m => (tt.shape m.typ).kind ≠ .func with
  | some m => .error (.invalidMethodType m.name (tt.spell m.typ))
  | none =>
      let merged ← (all.mergeSort Method.le).foldlM appendMethod []
      if maxMethods < merged.length then .error (.tooManyMethods merged.length)
      else .ok merged.reverse

/-- An interface type with the given methods and those of the embedded interfaces. -/
def newInterface (embedded : List TypeId) (direct : List Method) : TypeM TypeId := do
  let methods ← MonadExcept.ofExcept ((← get).mergeMethods embedded direct)
  intern (.interface methods)

/-! ### Declared types -/

/-- A declared type that does not stand for anything yet. -/
def newNamed (pkgPath name : String) : TableM TypeId :=
  add (.named pkgPath name none []) {}

/-- Says what a declared type stands for: what `meaning` stands for, if that is known.  Its fingerprint is that
of its name. -/
def setUnderlying (t meaning : TypeId) : TypeM Unit := do
  let tt ← get
  match tt.shape t with
  | .named pkgPath name bound methods =>
      match tt.underlying? meaning with
      | none => throw (.incompleteUnderlying (tt.spell meaning))
      | some u =>
          if bound.isSome then throw (.underlyingAlreadySet (tt.spell t))
          let hash := (Fingerprint.start.string pkgPath).string name
          set (tt.update t fun info =>
            { info with shape := .named pkgPath name (some u) methods
                        layout := { info.layout with kind := (tt.shape u).kind, hash } })
  | _ => throw (.notNamed (tt.spell t))

/-- Declares a method on a declared type.  A second declaration with the same signature changes nothing. -/
def addMethod (t : TypeId) (m : Method) : TypeM Unit := do
  let tt ← get
  match tt.shape t with
  | .named pkgPath name bound methods =>
      if (tt.shape m.typ).kind ≠ .func then throw (.invalidMethodType m.name (tt.spell m.typ))
      match methods.find? (·.sameName m) with
      | some old => if old.typ ≠ m.typ then throw (.duplicateMethod m.qualifiedName)
      | none =>
          let methods := (methods ++ [m]).mergeSort Method.le
          set (tt.update t fun info => { info with shape := .named pkgPath name bound methods })
  | _ => throw (.notNamed (tt.spell t))

end TypeTable

end GoSource
