import GoSource.Literal.Quoted
import GoSource.Package.State

/-!
# Collecting names

Before anything is resolved, every name at the top level of a file is entered into the package.  Declared types
get their handles here, so that they can refer to themselves.  Of two declarations of one name the second is a
fault and declares nothing.
-/

namespace GoSource.Package

/-- Gives a name its meaning.  An anonymous one is declared but cannot be found by its name. -/
def enter (anonymous : Bool) (entry : Entry) (obj : Object) (pkg : Package) : Package :=
  { pkg with
      scope := if anonymous then pkg.scope else (obj.name, entry) :: pkg.scope
      objects := pkg.objects.insert entry.name obj }

/-- Notes that a declaration has to be resolved, if that is not noted yet. -/
def schedule (entry : Entry) (pkg : Package) : Package :=
  if (pkg.progress? entry.spec).isSome then pkg else { pkg with tasks := pkg.tasks ++ [{ entry }] }

/-- Whether a name is declared already. -/
def isTaken (pkg : Package) (name : String) : Bool :=
  (pkg.declared? name).isSome

/-- A new declared type of the package. -/
def newType (name : String) (pkg : Package) : TypeId × Package :=
  let (t, types) := (TypeTable.newNamed pkg.path name).run pkg.types
  (t, { pkg with types })

/-- Declares a name.  A declared type gets its handle, an alias none of its own. -/
def declare (file : ParsedFile) (role : Role) (spec : NodeId) (pkg : Package) (node : NodeId) : Package :=
  if file.tree.isBad node then pkg
  else
    let name := file.tree.literal node
    let entry : Entry := { name := node, spec, role }
    let (typ, pkg) :=
      if role = .type ∧ file.tree.op spec = .kw .type then
        let (t, pkg) := pkg.newType name
        (some t, pkg)
      else (none, pkg)
    let anonymous := name == "_" || (role = .function && name == "init")
    if !anonymous && pkg.isTaken name then pkg.report file node (.redeclared name)
    else (pkg.enter anonymous entry { name, role, typ, decl := some spec }).schedule entry

/-- Declares an imported package: by the name given to it, or else by the last segment of its path. -/
def declareImport (file : ParsedFile) (pkg : Package) (spec : NodeId) : Package :=
  match file.tree.part? spec 1 with
  | none => pkg
  | some pathNode =>
      match Literal.unquote? (file.tree.literal pathNode) with
      | none => pkg
      | some path =>
          let localName? := file.tree.part? spec 0
          let node := localName?.getD pathNode
          let name := localName?.elim (Text.lastSegment path) fun node => (file.tree.node node).atom.text
          let entry : Entry := { name := node, spec, role := .package }
          let anonymous := name == "_" || name == "."
          if !anonymous && pkg.isTaken name then pkg.report file node (.redeclared name)
          else pkg.enter anonymous entry { name, role := .package, decl := some spec }

/-- Declares the name of a type specification. -/
def declareType (file : ParsedFile) (pkg : Package) (spec : NodeId) : Package :=
  match file.tree.part? spec 0 with
  | none => pkg
  | some name =>
      match file.tree.op name with
      | .lit .ident => pkg.declare file .type spec name
      | .tag .generic => pkg.report file name .genericType
      | _ => pkg

/-- Declares the names of a value specification. -/
def declareValues (file : ParsedFile) (role : Role) (pkg : Package) (spec : NodeId) : Package :=
  if file.tree.op spec ≠ .tag .valueSpec then pkg
  else
    match file.tree.part? spec 0 with
    | none => pkg
    | some names => (file.tree.present names).foldl (declare file role spec) pkg

/-- Declares the name of a function. -/
def declareFunction (file : ParsedFile) (pkg : Package) (decl : NodeId) : Package :=
  match file.tree.part? decl 1 with
  | none => pkg
  | some name =>
      match file.tree.op name with
      | .lit .ident => pkg.declare file .function decl name
      | .tag .generic => pkg.report file name .genericFunction
      | _ => pkg

/-- Whether a node at the top level declares a method: a function with a receiver. -/
def isMethod (tree : Tree) (decl : NodeId) : Bool :=
  !tree.isBad decl && tree.op decl = .kw .func && (tree.part? decl 0).isSome

/-- The parts of a node that could be parsed. -/
def sound (tree : Tree) (node : NodeId) : List NodeId :=
  (tree.present node).filter (!tree.isBad ·)

/-- The texts in the places of paths, in the import declarations among `decls`. -/
def importPaths (tree : Tree) (decls : List NodeId) : List String :=
  (decls.filter fun d => !tree.isBad d && tree.op d = .kw .import_).flatMap fun d =>
    (sound tree d).filterMap fun spec => (tree.part? spec 1).map tree.literal

/-- Enters the names that a node at the top level declares.  Methods are not names of the package. -/
def collect (file : ParsedFile) (pkg : Package) (decl : NodeId) : Package :=
  let tree := file.tree
  if tree.isBad decl || isMethod tree decl then pkg
  else
    match tree.op decl with
    | .kw .import_ => (sound tree decl).foldl (declareImport file) pkg
    | .kw .const => (sound tree decl).foldl (declareValues file .constant) pkg
    | .kw .var => (sound tree decl).foldl (declareValues file .variable) pkg
    | .kw .type => (sound tree decl).foldl (declareType file) pkg
    | .kw .func => pkg.declareFunction file decl
    | _ => pkg

end GoSource.Package
