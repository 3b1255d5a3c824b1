import GoSource.Diagnostic

/-!
# Faults of type construction

What can be wrong with a request to build a type.  Types are shown as they were spelled at the time of the
request.
-/

namespace GoSource

/-- Why a type cannot be built or bound. -/
inductive TypeFault where
  /-- The array would not fit into the address space. -/
  | arrayTooLarge (length max : Nat)
  | incompleteEmbedded (typ : String)
  | notAnInterface (typ : String)
  | duplicateMethod (name : String)
  | invalidMethodType (name typ : String)
  | tooManyMethods (count : Nat)
  | invalidVariadic
  | notNamed (typ : String)
  | underlyingAlreadySet (typ : String)
  | incompleteUnderlying (typ : String)
  deriving DecidableEq, Repr

instance : Inhabited TypeFault := ⟨.invalidVariadic⟩

/-- The wording of faults of type construction. -/
def TypeFault.message : TypeFault → String
  | .arrayTooLarge length max =>
      "array length " ++ toString length ++ " exceeds the maximum " ++ toString max
        ++ " for this element type"
  | .incompleteEmbedded typ => "embedded interface " ++ typ ++ " is incomplete, it has no underlying type"
  | .notAnInterface typ =>
      "invalid embedded interface " ++ typ ++ ", its underlying type must be an interface"
  | .duplicateMethod name => "found duplicate method " ++ name ++ " with conflicting types"
  | .invalidMethodType name typ =>
      "invalid type " ++ typ ++ " for method " ++ name ++ ", expecting a func type"
  | .tooManyMethods count => "too many methods: " ++ toString count
  | .invalidVariadic => "variadic func type must end with a slice parameter"
  | .notNamed typ => typ ++ " is not a named type"
  | .underlyingAlreadySet typ => "underlying type of " ++ typ ++ " is already set"
  | .incompleteUnderlying typ => "type " ++ typ ++ " is incomplete, it has no underlying type"

instance : Describe TypeFault := ⟨TypeFault.message⟩

end GoSource
