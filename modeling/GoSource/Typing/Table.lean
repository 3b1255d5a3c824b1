import GoSource.Text.Segment
import GoSource.Typing.Shape
import GoSource.Typing.Target

/-!
# The table of types

A `TypeTable` holds all types of a program.  A handle is a place in the table; structurally equal types have
one handle, except for declared types, of which each declaration makes a new one.

This module looks things up.  `TypeTable.spell` writes a type as source text.
-/

namespace GoSource

/-- A type in the table. -/
structure TypeInfo where
  /-- How it is built. -/
  shape : Shape
  /-- Its short spelling, made when the type was. -/
  short : String := ""
  /-- What is known about its values. -/
  layout : Layout := {}
  /-- Whether its layout is being computed. -/
  completing : Bool := false
  deriving DecidableEq, Repr, Inhabited

/-- All types, for one architecture. -/
structure TypeTable where
  /-- The architecture. -/
  target : Target := .amd64
  /-- The types, in the order in which they were made. -/
  types : Array TypeInfo := #[]
  deriving DecidableEq, Repr, Inhabited

namespace TypeTable

/-- The handle of the invalid type. -/
def invalid : TypeId :=
  ⟨0⟩

/-- The handle of the predeclared type of a kind; the invalid type for kinds that have none. -/
def basic (k : Kind) : TypeId :=
  if k.isBasic then ⟨Kind.basics.idxOf k + 1⟩ else invalid

/-- A type by its handle. -/
def info (tt : TypeTable) (t : TypeId) : TypeInfo :=
  (tt.types[t.index]?).getD { shape := .basic .invalid }

/-- How a type is built. -/
def shape (tt : TypeTable) (t : TypeId) : Shape :=
  (tt.info t).shape

/-- What is known about a type so far. -/
def layout (tt : TypeTable) (t : TypeId) : Layout :=
  (tt.info t).layout

/-- The short spelling of a type. -/
def short (tt : TypeTable) (t : TypeId) : String :=
  (tt.info t).short

/-- The kind of a type: for a declared type, that of what it stands for as far as that is known. -/
def kind (tt : TypeTable) (t : TypeId) : Kind :=
  if (tt.shape t).isDeclared then (tt.layout t).kind else (tt.shape t).kind

/-- The type that a type stands for: itself unless it is declared, and then nothing until it is bound. -/
def underlying? (tt : TypeTable) (t : TypeId) : Option TypeId :=
  match tt.shape t with
  | .named _ _ underlying _ => underlying
  | _ => some t

/-- How the type that a type stands for is built. -/
def underlyingShape? (tt : TypeTable) (t : TypeId) : Option Shape :=
  (tt.underlying? t).map tt.shape

/-- Whether a type has a name of its own: typed predeclared types and declared types. -/
def isNamed (tt : TypeTable) (t : TypeId) : Bool :=
  match tt.shape t with
  | .basic k => k != .invalid && !k.isUntyped
  | .named .. => true
  | _ => false

/-- The name of a type. -/
def name? (tt : TypeTable) (t : TypeId) : Option String :=
  match tt.shape t with
  | .named _ name _ _ => some name
  | .basic k => if tt.isNamed t then some k.name else none
  | _ => none

/-- The package of a declared type. -/
def pkgPath? (tt : TypeTable) (t : TypeId) : Option String :=
  match tt.shape t with
  | .named pkgPath .. => some pkgPath
  | _ => none

/-- The element type of arrays, slices, pointers, channels and maps. -/
def elem? (tt : TypeTable) (t : TypeId) : Option TypeId :=
  match tt.underlyingShape? t with
  | some (.array elem _) | some (.slice elem) | some (.pointer elem) | some (.chan elem _)
  | some (.map _ elem) => some elem
  | _ => none

/-- The key type of maps. -/
def key? (tt : TypeTable) (t : TypeId) : Option TypeId :=
  match tt.underlyingShape? t with
  | some (.map key _) => some key
  | _ => none

/-- The length of arrays. -/
def length? (tt : TypeTable) (t : TypeId) : Option Nat :=
  match tt.underlyingShape? t with
  | some (.array _ length) => some length
  | _ => none

/-- The direction of channels. -/
def chanDir? (tt : TypeTable) (t : TypeId) : Option ChanDir :=
  match tt.underlyingShape? t with
  | some (.chan _ dir) => some dir
  | _ => none

/-- Whether a function takes any number of last arguments. -/
def isVariadic (tt : TypeTable) (t : TypeId) : Bool :=
  match tt.underlyingShape? t with
  | some (.func _ _ variadic) | some (.builtin _ _ _ variadic) => variadic
  | _ => false

/-- The number of parameters of a function. -/
def inputCount (tt : TypeTable) (t : TypeId) : Nat :=
  match tt.underlyingShape? t with
  | some (.func params _ _) => params.length
  | some (.builtin _ inputs _ _) => inputs
  | _ => 0

/-- The number of results of a function. -/
def outputCount (tt : TypeTable) (t : TypeId) : Nat :=
  match tt.underlyingShape? t with
  | some (.func _ results _) => results.length
  | some (.builtin _ _ outputs _) => outputs
  | _ => 0

/-- A parameter type of a function; functions of the language itself have none. -/
def param? (tt : TypeTable) (t : TypeId) (i : Nat) : Option TypeId :=
  match tt.underlyingShape? t with
  | some (.func params _ _) => params[i]?
  | _ => none

/-- A result type of a function; functions of the language itself have none. -/
def result? (tt : TypeTable) (t : TypeId) (i : Nat) : Option TypeId :=
  match tt.underlyingShape? t with
  | some (.func _ results _) => results[i]?
  | _ => none

/-- The methods of an interface, or those declared on a named type. -/
def methods (tt : TypeTable) (t : TypeId) : List Method :=
  match tt.shape t with
  | .interface methods => methods
  | .named _ _ underlying methods =>
      match underlying.map tt.shape with
      | some (.interface inherited) => inherited
      | _ => methods
  | _ => []

/-! ### Spelling -/

/-- Texts separated by commas. -/
def commas (texts : List String) : String :=
  String.intercalate ", " texts

/-- A parameter list.  In a variadic one the last parameter is written by its element type. -/
def spellParams (tt : TypeTable) (spell : TypeId → String) (variadic : Bool) :
    List TypeId → List String
  | [] => []
  | [p] =>
      match variadic, tt.elem? p with
      | true, some elem => ["..." ++ spell elem]
      | _, _ => [spell p]
  | p :: ps => spell p :: spellParams tt spell variadic ps

/-- Parameters and results. -/
def spellSignature (tt : TypeTable) (spell : TypeId → String) (params results : List TypeId)
    (variadic : Bool) : String :=
  let outputs :=
    match results with
    | [] => ""
    | [only] => " " ++ spell only
    | _ => " (" ++ commas (results.map spell) ++ ")"
  "(" ++ commas (spellParams tt spell variadic params) ++ ")" ++ outputs

/-- A method of an interface; in full with its package. -/
def spellMethod (tt : TypeTable) (spell : TypeId → String) (full : Bool) (m : Method) : String :=
  (if full then m.qualifiedName else m.name) ++
    match tt.shape m.typ with
    | .func params results variadic => spellSignature tt spell params results variadic
    | _ => spell m.typ

/-- A channel's direction as it is written. -/
def spellDir : ChanDir → String
  | .both => "chan "
  | .send => "chan<- "
  | .recv => "<-chan "

/-- A shape as source text, when `spell` writes its parts.  A receive channel inside another channel is put in
parentheses where the arrow could be read the other way. -/
def spellShape (tt : TypeTable) (spell : TypeId → String) (full : Bool) : Shape → String
  | .basic k => k.name
  | .array elem length => "[" ++ toString length ++ "]" ++ spell elem
  | .slice elem => "[]" ++ spell elem
  | .pointer elem => "*" ++ spell elem
  | .chan elem dir =>
      if dir ≠ .recv ∧ tt.chanDir? elem = some .recv ∧ !tt.isNamed elem then
        spellDir dir ++ "(" ++ spell elem ++ ")"
      else spellDir dir ++ spell elem
  | .map key elem => "map[" ++ spell key ++ "]" ++ spell elem
  | .func params results variadic => "func" ++ spellSignature tt spell params results variadic
  | .interface [] => "interface \x7b\x7d"
  | .interface methods =>
      "interface \x7b " ++ String.intercalate "; " (methods.map (spellMethod tt spell full)) ++ " \x7d"
  | .builtin .. => "func(...)"
  | .named pkgPath name _ _ =>
      let pkg := if full then pkgPath else Text.lastSegment pkgPath
      if pkg.isEmpty then name else pkg ++ "." ++ name

/-- A type as source text, package paths in full.  The parts of a built type were made before it, so their
handles are smaller. -/
def spell (tt : TypeTable) (t : TypeId) : String :=
  spellShape tt (fun part => if part.index < t.index then tt.spell part else tt.short part) true (tt.shape t)
termination_by t.index

end TypeTable

end GoSource
