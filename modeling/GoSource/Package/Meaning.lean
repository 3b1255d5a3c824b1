import GoSource.Package.State

/-!
# Meanings

Declarations refer to one another in cycles: a type to the types it is made of, an array to the constant that
is its length, a constant to another.  `Meanings` holds one question for each kind of node through which such a
cycle passes; every rule of resolution is a function of such a record, and the cycles are closed in one place.
-/

namespace GoSource

/-- The questions through which declarations refer to one another. -/
structure Meanings where
  /-- The type that a type expression denotes. -/
  type : NodeId → ResolveM TypeId
  /-- The value and the type of a constant expression. -/
  constant : NodeId → ResolveM (ConstValue × TypeId)
  /-- The type of an initializer, where it can be told without checking expressions. -/
  value : NodeId → ResolveM (Option TypeId)
  /-- Resolves a declaration, unless that is done or under way. -/
  declaration : Entry → ResolveM Unit

namespace Meanings

open ResolveM

/-- What an identifier stands for; its declaration is resolved first. -/
def object (m : Meanings) (id : NodeId) : ResolveM Object := do
  let name := (← tree).literal id
  if name == "_" then fail id .blankUsed
  if let some entry := (← get).declared? name then
    m.declaration entry
    if let some obj := (← get).objects.get? entry.name then return obj
  match (← get).predeclared? name with
  | some obj => return obj
  | none => fail id (.undefined name)

end Meanings

end GoSource
