/-!
# Kinds of types

A kind says which family a type belongs to; a named type has the kind of the type it stands for.  Constants
without a type of their own have the untyped kinds.
-/

namespace GoSource

/-- The family of a type. -/
inductive Kind where
  | invalid | bool
  | int | int8 | int16 | int32 | int64
  | uint | uint8 | uint16 | uint32 | uint64 | uintptr
  | float32 | float64 | complex64 | complex128 | string | unsafePointer
  | array | chan | func | interface | map | pointer | slice
  | untypedBool | untypedInt | untypedRune | untypedFloat | untypedComplex | untypedString | untypedNil
  deriving DecidableEq, Repr

instance : Inhabited Kind := ⟨.invalid⟩

namespace Kind

/-- Every kind, in the order of the kinds' ordinals. -/
def all : List Kind :=
  [.invalid, .bool, .int, .int8, .int16, .int32, .int64,
   .uint, .uint8, .uint16, .uint32, .uint64, .uintptr,
   .float32, .float64, .complex64, .complex128, .string, .unsafePointer,
   .array, .chan, .func, .interface, .map, .pointer, .slice,
   .untypedBool, .untypedInt, .untypedRune, .untypedFloat, .untypedComplex, .untypedString, .untypedNil]

/-- The name of a kind; for the basic kinds also the name of their type. -/
def name : Kind → String
  | .invalid => "invalid type"
  | .bool => "bool"
  | .int => "int"
  | .int8 => "int8"
  | .int16 => "int16"
  | .int32 => "int32"
  | .int64 => "int64"
  | .uint => "uint"
  | .uint8 => "uint8"
  | .uint16 => "uint16"
  | .uint32 => "uint32"
  | .uint64 => "uint64"
  | .uintptr => "uintptr"
  | .float32 => "float32"
  | .float64 => "float64"
  | .complex64 => "complex64"
  | .complex128 => "complex128"
  | .string => "string"
  | .unsafePointer => "unsafe.Pointer"
  | .array => "array"
  | .chan => "chan"
  | .func => "func"
  | .interface => "interface"
  | .map => "map"
  | .pointer => "ptr"
  | .slice => "slice"
  | .untypedBool => "untyped bool"
  | .untypedInt => "untyped int"
  | .untypedRune => "untyped rune"
  | .untypedFloat => "untyped float"
  | .untypedComplex => "untyped complex"
  | .untypedString => "untyped string"
  | .untypedNil => "untyped nil"

/-- The kind with a given name. -/
def ofName? (s : String) : Option Kind :=
  all.find? (·.name == s)

/-- The place of a kind among all kinds, from 0. -/
def ordinal (k : Kind) : Nat :=
  all.idxOf k

/-- Kinds of constants that have no type of their own. -/
def isUntyped : Kind → Bool
  | .untypedBool | .untypedInt | .untypedRune | .untypedFloat | .untypedComplex | .untypedString
  | .untypedNil => true
  | _ => false

/-- Kinds that have a predeclared type. -/
def isBasic : Kind → Bool
  | .invalid | .array | .chan | .func | .interface | .map | .pointer | .slice => false
  | _ => true

/-- The kinds that have a predeclared type, in order. -/
def basics : List Kind :=
  all.filter isBasic

/-- The broad family of a kind: all integers are `int`, all floats `float64`, all complex numbers
`complex128`; an untyped kind has the family of its default type. -/
def category : Kind → Kind
  | .int | .int8 | .int16 | .int32 | .int64
  | .uint | .uint8 | .uint16 | .uint32 | .uint64 | .uintptr
  | .untypedInt | .untypedRune => .int
  | .float32 | .float64 | .untypedFloat => .float64
  | .complex64 | .complex128 | .untypedComplex => .complex128
  | .untypedBool => .bool
  | .untypedString => .string
  | k => k

/-- Kinds whose values can be `nil`. -/
def isNillable : Kind → Bool
  | .chan | .func | .interface | .map | .pointer | .slice | .unsafePointer | .untypedNil => true
  | _ => false

/-- Kinds of whole numbers. -/
def isInteger (k : Kind) : Bool :=
  k.category = .int

end Kind

end GoSource
