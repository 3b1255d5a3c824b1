import GoSource.Package.Collect
import GoSource.Package.Declaration

/-!
# Resolving a file

Here the cycles of resolution are closed.  A question about a node leads to questions about smaller nodes, or
to a declaration that nobody has begun to resolve; beginning it leaves one less of those.  `weight` is that
order as a number, and `meanings` serves the questions below a given weight.

`Package.resolveFile` resolves the declarations of a file in four passes: names, declarations, methods, and
types that contain themselves.  `Package.resolveFile?` also knows the files at which a run breaks down.
-/

namespace GoSource

/-- The weight of a question of a given rank, in a file of `size` nodes. -/
def Package.weight (pkg : Package) (size rank : Nat) : Nat :=
  pkg.pendingCount * (size + 1) + rank

/-- The rank of a question about a node. -/
def NodeId.rank (id : NodeId) : Nat :=
  id.index + 1

/-- The rank of a question about a declaration, which comes before all nodes. -/
abbrev declarationRank : Nat := 0

/-- The meanings of nodes and declarations, for questions of weight below `bound`.  A question that is not
below it would go round in a circle; it is answered as for a node that could not be parsed. -/
def meanings (bound : Nat) : Meanings := {
  type := fun id file pkg =>
    if _h : pkg.weight file.tree.size id.rank < bound then
      (meanings (pkg.weight file.tree.size id.rank)).typeExpr id file pkg
    else (.ok TypeTable.invalid, pkg)
  constant := fun id file pkg =>
    if _h : pkg.weight file.tree.size id.rank < bound then
      (meanings (pkg.weight file.tree.size id.rank)).constantExpr id file pkg
    else ResolveM.fail id .invalidInitializer file pkg
  value := fun id file pkg =>
    if _h : pkg.weight file.tree.size id.rank < bound then
      (meanings (pkg.weight file.tree.size id.rank)).valueExpr id file pkg
    else (.ok none, pkg)
  declaration := fun entry file pkg =>
    if _h : pkg.weight file.tree.size declarationRank < bound then
      (meanings (pkg.weight file.tree.size declarationRank)).resolve entry file pkg
    else (.ok (), pkg) }
termination_by bound

namespace ResolveM

/-- Runs a rule on the meanings that serve the current state. -/
def run {α : Type} (rule : Meanings → ResolveM α) : ResolveM α :=
  fun file pkg => rule (meanings (pkg.weight file.tree.size (file.tree.size + 1))) file pkg

/-- Whether a declared type is bound and yet incomplete, which means that it contains itself by value. -/
def containsItself (t : TypeId) : ResolveM Bool := do
  let tt ← types
  if (tt.underlying? t).isNone || tt.isInvalid t then return false
  let layout ← build (TypeTable.completed t)
  return !layout.isComplete

/-- Reports a type declaration whose type contains itself. -/
def checkFinite (entry : Entry) : ResolveM Unit := do
  if entry.role = .type then
    if let some obj := (← get).objects.get? entry.name then
      if let some t := obj.typ then
        if ← containsItself t then
          let file ← read
          modify fun pkg => pkg.report file entry.name (.recursiveType obj.name)

/-- Resolves what has been collected, and the methods. -/
def resolveAll (methods : List NodeId) : ResolveM Unit := do
  let entries := (← get).tasks.map Task.entry
  entries.forM fun entry => run (·.resolve entry)
  methods.forM fun decl => isolate (run (·.method decl))
  entries.forM checkFinite

end ResolveM

namespace Package

/-- The name of the package: that of the package clause, or `main` if there is none. -/
def pathOf (tree : Tree) (decls : List NodeId) : String :=
  match decls.find? fun d => tree.op d = .kw .package && !tree.isBad d with
  | some clause => ((tree.part? clause 0).map tree.literal).getD "main"
  | none => "main"

/-- The package with nothing declared in it. -/
def reset (pkg : Package) (path : String) : Package :=
  { types := pkg.types, outer := pkg.outer, path }

/-- Resolves some of the declarations of a file, as a package of its own.  The types stay from file to file.
The only failures that are returned end the work on the file. -/
def resolveDecls (file : ParsedFile) (decls : List NodeId) (pkg : Package) :
    Except Failure Unit × Package :=
  let pkg := decls.foldl (collect file) (pkg.reset (pathOf file.tree decls))
  (ResolveM.resolveAll (decls.filter (isMethod file.tree))) file pkg

/-- Resolves all declarations of a file. -/
def resolveFile (file : ParsedFile) (pkg : Package) : Except Failure Unit × Package :=
  pkg.resolveDecls file file.decls

/-- Resolves some of the declarations of a file.  There is no outcome if the marks of an import path cannot be taken
off: then the run ends where it is. -/
def resolveDecls? (file : ParsedFile) (decls : List NodeId) (pkg : Package) :
    Option (Except Failure Unit × Package) :=
  if (importPaths file.tree decls).any Literal.isUncuttable then none else some (pkg.resolveDecls file decls)

/-- Resolves all declarations of a file, if there is an outcome. -/
def resolveFile? (file : ParsedFile) (pkg : Package) : Option (Except Failure Unit × Package) :=
  pkg.resolveDecls? file file.decls

end Package

end GoSource
