import GoSource.Diagnostic
import GoSource.Literal.Shown

/-!
# Target architectures

The architecture fixes the size of a pointer and of the largest object.
-/

namespace GoSource

/-- The architectures that code can be laid out for. -/
inductive Target where
  | amd64 | arm64 | i386 | arm
  deriving DecidableEq, Repr, Inhabited

/-- A name that is no architecture. -/
structure UnknownTarget where
  /-- The name. -/
  name : String
  deriving DecidableEq, Repr, Inhabited

instance : Describe UnknownTarget where
  describe e := "unknown target architecture " ++ Literal.shown e.name

namespace Target

/-- Every architecture. -/
def all : List Target :=
  [.amd64, .arm64, .i386, .arm]

/-- The name of an architecture. -/
def name : Target → String
  | .amd64 => "amd64"
  | .arm64 => "arm64"
  | .i386 => "386"
  | .arm => "arm"

/-- The architecture with a given name. -/
def ofName (s : String) : Except UnknownTarget Target :=
  match all.find? (·.name == s) with
  | some t => .ok t
  | none => .error { name := s }

/-- The number of bytes of a pointer. -/
def pointerSize : Target → Nat
  | .amd64 | .arm64 => 8
  | .i386 | .arm => 4

/-- The number of bytes of the largest object: the largest signed number as wide as a pointer. -/
def maxSize (t : Target) : Nat :=
  (1 <<< (8 * t.pointerSize - 1)) - 1

end Target

end GoSource
