import GoSource.Typing.Fingerprint
import GoSource.Typing.Kind

/-!
# Shapes and layouts

Types are named by handles.  A `Shape` is how a type is built from others, a `Layout` what is known about its
values: size, alignment, fingerprint, traits and kind.
-/

namespace GoSource

/-- The handle of a type in its table. -/
structure TypeId where
  /-- Place among the table's types. -/
  index : Nat
  deriving DecidableEq, Repr, Inhabited, Hashable

/-- The direction of a channel. -/
inductive ChanDir where
  | recv | send | both
  deriving DecidableEq, Repr, Inhabited

/-- The code of a direction in fingerprints. -/
def ChanDir.code : ChanDir → Nat
  | .recv => 1
  | .send => 2
  | .both => 3

/-- A method of an interface or of a named type. -/
structure Method where
  /-- Its name. -/
  name : String
  /-- The package it belongs to; empty for exported methods. -/
  pkgPath : String
  /-- Its signature without the receiver. -/
  typ : TypeId
  deriving DecidableEq, Repr, Inhabited

namespace Method

/-- The name after the package path, if there is one. -/
def qualifiedName (m : Method) : String :=
  if m.pkgPath.isEmpty then m.name else m.pkgPath ++ "." ++ m.name

/-- Whether two methods have the same name in the same package. -/
def sameName (m n : Method) : Bool :=
  m.name == n.name && m.pkgPath == n.pkgPath

/-- Methods are ordered by package path, then by name. -/
def le (m n : Method) : Bool :=
  m.pkgPath < n.pkgPath || (m.pkgPath == n.pkgPath && !(n.name < m.name))

end Method

/-- How a type is built. -/
inductive Shape where
  /-- A predeclared type, or the invalid one. -/
  | basic (kind : Kind)
  | array (elem : TypeId) (length : Nat)
  | slice (elem : TypeId)
  | pointer (elem : TypeId)
  | chan (elem : TypeId) (dir : ChanDir)
  | map (key elem : TypeId)
  | func (params results : List TypeId) (variadic : Bool)
  /-- An interface is its method set; how the methods were written is no part of it. -/
  | interface (methods : List Method)
  /-- A function of the language itself, known by its arity only. -/
  | builtin (name : String) (inputs outputs : Nat) (variadic : Bool)
  /-- A declared type; what it stands for is bound later. -/
  | named (pkgPath name : String) (underlying : Option TypeId) (methods : List Method)
  deriving DecidableEq, Repr, Inhabited

namespace Shape

/-- The kind that the shape alone fixes; named types have none by themselves. -/
def kind : Shape → Kind
  | .basic k => k
  | .array .. => .array
  | .slice _ => .slice
  | .pointer _ => .pointer
  | .chan .. => .chan
  | .map .. => .map
  | .func .. => .func
  | .interface _ => .interface
  | .builtin .. => .invalid
  | .named .. => .invalid

/-- The types that a type is built from. -/
def components : Shape → List TypeId
  | .array elem _ | .slice elem | .pointer elem | .chan elem _ => [elem]
  | .map key elem => [key, elem]
  | .func params results _ => params ++ results
  | .interface methods => methods.map Method.typ
  | .basic _ | .builtin .. | .named .. => []

/-- Whether a type is declared rather than built. -/
def isDeclared : Shape → Bool
  | .named .. => true
  | _ => false

end Shape

/-- Yes-or-no properties of a type. -/
structure Traits where
  /-- Values can be compared. -/
  comparable : Bool := false
  /-- Values cannot be compared.  Neither of the two holds as long as it is not known. -/
  incomparable : Bool := false
  /-- Size, alignment and fingerprint are known. -/
  complete : Bool := false
  /-- The type is an array without bytes. -/
  needsPadding : Bool := false
  /-- The last parameter takes the rest of the arguments. -/
  variadic : Bool := false
  deriving DecidableEq, Repr, Inhabited

/-- The traits as a set of bits, from the third one on. -/
def Traits.bits (t : Traits) : Nat :=
  4 * t.comparable.toNat + 8 * t.incomparable.toNat + 16 * t.complete.toNat
    + 32 * t.needsPadding.toNat + 64 * t.variadic.toNat

/-- What is known about the values of a type. -/
structure Layout where
  /-- Size in bytes, once known. -/
  size : Option Nat := none
  /-- Alignment in bytes, once known. -/
  align : Option Nat := none
  /-- Digest of the structure, once known. -/
  hash : Fingerprint := .unknown
  /-- Properties. -/
  traits : Traits := {}
  /-- The family. -/
  kind : Kind := .invalid
  deriving DecidableEq, Repr, Inhabited

/-- Whether everything is known. -/
def Layout.isComplete (l : Layout) : Bool :=
  l.traits.complete

end GoSource
