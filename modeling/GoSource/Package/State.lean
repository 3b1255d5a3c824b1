import GoSource.Grammar.Parse
import GoSource.Package.Fault
import GoSource.Tree.NodeMap
import GoSource.Unicode.Uppercase

/-!
# Packages under resolution

A `Package` holds the names of one file, what they stand for, and what was found wrong.

* `Package.lookup` finds a name: in the package first, then in the universe.
* `ResolveM` is the monad of resolution.  A failure ends the work on a declaration and keeps what was done.
-/

namespace GoSource

/-- A name at the top level of a file. -/
structure Entry where
  /-- The node of the name. -/
  name : NodeId
  /-- The node of the declaration: a type, value or import specification, or a function. -/
  spec : NodeId
  /-- What the name stands for. -/
  role : Role
  deriving DecidableEq, Repr, Inhabited

/-- How far the resolution of a declaration has come. -/
inductive Progress where
  | pending | resolving | done
  deriving DecidableEq, Repr, Inhabited

/-- A declaration to be resolved, by the first name that it declares. -/
structure Task where
  /-- The declaration. -/
  entry : Entry
  /-- How far it is resolved. -/
  progress : Progress := .pending
  deriving DecidableEq, Repr, Inhabited

/-- The names of a file and what they stand for. -/
structure Package where
  /-- All types. -/
  types : TypeTable
  /-- The names that need no declaration. -/
  outer : List Object
  /-- The package's name, which its declared types and unexported methods carry. -/
  path : String := ""
  /-- The names declared at the top level. -/
  scope : List (String × Entry) := []
  /-- The declarations to be resolved, in source order. -/
  tasks : List Task := []
  /-- The declared entities, by the nodes of their names. -/
  objects : NodeMap Object := {}
  /-- The methods declared so far: receiver as written, and name. -/
  methods : List (String × String) := []
  /-- What was found wrong, oldest first. -/
  faults : Array (Diagnostic SemanticFault) := #[]
  deriving Inhabited

namespace Package

/-- An empty package over a table of types. -/
def new (types : TypeTable) : Package :=
  let (outer, types) := newUniverse.run.run types
  { types, outer := outer.toOption.getD [] }

/-- A predeclared entity. -/
def predeclared? (pkg : Package) (name : String) : Option Object :=
  pkg.outer.find? (·.name == name)

/-- A name declared at the top level. -/
def declared? (pkg : Package) (name : String) : Option Entry :=
  pkg.scope.lookup name

/-- What a name stands for: in the package first, then in the universe. -/
def lookup (pkg : Package) (name : String) : Option Object :=
  match pkg.declared? name with
  | some entry => pkg.objects.get? entry.name
  | none => pkg.predeclared? name

/-- How far a declaration is resolved; nothing for nodes that are no declaration. -/
def progress? (pkg : Package) (spec : NodeId) : Option Progress :=
  (pkg.tasks.find? (·.entry.spec = spec)).map Task.progress

/-- Notes how far a declaration is resolved. -/
def setProgress (pkg : Package) (spec : NodeId) (progress : Progress) : Package :=
  { pkg with
      tasks := pkg.tasks.map fun task => if task.entry.spec = spec then { task with progress } else task }

/-- The number of declarations that nobody has begun to resolve. -/
def pendingCount (pkg : Package) : Nat :=
  pkg.tasks.countP (·.progress = .pending)

/-- Records a fault at a node. -/
def report (file : ParsedFile) (pkg : Package) (node : NodeId) (cause : SemanticFault) : Package :=
  { pkg with faults := pkg.faults.push (.make file.file (file.tree.pos node) cause) }

/-- The package path that a method name carries: none if it is exported. -/
def methodPath (pkg : Package) (name : String) : String :=
  if name.toList.head?.any Unicode.isUppercase then "" else pkg.path

end Package

/-- Whether a type is known to be invalid.  A declared type that is not bound yet is not. -/
def TypeTable.isInvalid (tt : TypeTable) (t : TypeId) : Bool :=
  (tt.underlying? t).isSome && tt.kind t = .invalid

/-- Resolution of the declarations of a file. -/
abbrev ResolveM := ReaderT ParsedFile (ExceptT Failure (StateM Package))

namespace ResolveM

/-- The tree of the file. -/
def tree : ResolveM Tree :=
  return (← read).tree

/-- All types. -/
def types : ResolveM TypeTable :=
  return (← get).types

/-- Ends the work on a declaration with a fault at a node. -/
def fail {α : Type} (node : NodeId) (cause : SemanticFault) : ResolveM α := do
  let file ← read
  throw (.declaration (.make file.file (file.tree.pos node) cause))

/-- A part of a node that has to be there. -/
def part (node : NodeId) (place : Nat) : ResolveM NodeId := do
  let tree ← tree
  match tree.part? node place with
  | some c => return c
  | none => fail node (.incomplete (tree.render node))

/-- Runs an operation on the types. -/
def onTypes {α : Type} (action : TypeM α) : ResolveM (Except TypeFault α) :=
  modifyGet fun pkg =>
    let (outcome, types) := action.run.run pkg.types
    (outcome, { pkg with types })

/-- Runs an operation on the types that is not expected to be refused. -/
def build {α : Type} (action : TypeM α) : ResolveM α := do
  match ← onTypes action with
  | .ok x => return x
  | .error fault => throw (.construction fault)

/-- Runs an operation on the types; if it is refused for a reason that a source text can cause, the fault is
that of the node. -/
def buildAt {α : Type} (node : NodeId) (action : TypeM α) : ResolveM α := do
  match ← onTypes action with
  | .ok x => return x
  | .error fault =>
      match fault with
      | .arrayTooLarge .. | .duplicateMethod _ | .notAnInterface _ | .incompleteEmbedded _ =>
          fail node (.construction fault)
      | _ => throw (.construction fault)

/-- Runs an action and tells how it ended. -/
def attempt {α : Type} (action : ResolveM α) : ResolveM (Except Failure α) :=
  fun file pkg =>
    let (outcome, pkg) := action file pkg
    (.ok outcome, pkg)

/-- Records a fault. -/
def record (d : Diagnostic SemanticFault) : ResolveM Unit :=
  modify fun pkg => { pkg with faults := pkg.faults.push d }

/-- Records the fault of a declaration, so that only other failures are left. -/
def isolate (action : ResolveM Unit) : ResolveM Unit := do
  match ← attempt action with
  | .ok () => return
  | .error (.declaration d) => record d
  | .error failure => throw failure

end ResolveM

end GoSource
