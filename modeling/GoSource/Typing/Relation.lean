import GoSource.Typing.Table

/-!
# Relations between types

* `TypeTable.implements`: a type has all methods of an interface.
* `TypeTable.assignable`: a value of one type can be stored in a variable of another.
* `TypeTable.convertible`: a value of one type can be converted to another.

Types are identical when they have the same handle.
-/

namespace GoSource

/-- Whether a kind is one of real numbers. -/
def Kind.isReal (k : Kind) : Bool :=
  k.category = .int || k.category = .float64

/-- Whether an untyped constant of one kind fits variables of another.  Whether its value does is not asked
here. -/
def Kind.untypedFits (src dst : Kind) : Bool :=
  match src with
  | .untypedBool => dst.category = .bool
  | .untypedInt | .untypedRune | .untypedFloat => dst.isReal
  | .untypedComplex => dst.category = .complex128
  | .untypedString => dst.category = .string
  | .untypedNil => dst.isNillable
  | _ => false

namespace TypeTable

/-- The methods that can be called on a value of a type: those of an interface, those declared on a declared
type, and through a pointer those declared on what it points to. -/
def methodSet (tt : TypeTable) (t : TypeId) : List Method :=
  match tt.shape t with
  | .interface _ | .named .. => tt.methods t
  | .pointer elem =>
      if (tt.shape elem).isDeclared ∧ tt.kind elem ≠ .interface then tt.methods elem else []
  | _ => []

/-- Whether a type has every method of an interface, with the same signature. -/
def implements (tt : TypeTable) (src dst : TypeId) : Bool :=
  match tt.underlyingShape? dst with
  | some (.interface wanted) =>
      let set := tt.methodSet src
      wanted.all fun want => set.any fun own => own.sameName want && own.typ = want.typ
  | _ => false

/-- Whether a value of type `src` can be stored in a variable of type `dst`: the types are identical, or both
stand for valid types and

* an untyped constant fits, or
* they stand for the same type and one of them has no name, or
* a channel of both directions gives up one, and one of the types has no name, or
* `dst` is an interface that `src` implements. -/
def assignable (tt : TypeTable) (src dst : TypeId) : Bool :=
  if src = dst then true
  else
    match tt.underlying? src, tt.underlying? dst with
    | some u, some v =>
        let k := tt.kind src
        let l := tt.kind dst
        let oneUnnamed := !tt.isNamed src || !tt.isNamed dst
        if k = .invalid || l = .invalid then false
        else
          k.isUntyped && k.untypedFits l
            || u = v && oneUnnamed
            || k = .chan && l = .chan && tt.chanDir? src = some .both && tt.elem? src = tt.elem? dst
              && oneUnnamed
            || l = .interface && tt.implements src dst
    | _, _ => false

/-- Whether a type is a slice of bytes or of runes. -/
def isBytesOrRunes (tt : TypeTable) (t : TypeId) : Bool :=
  tt.kind t = .slice && (tt.elem? t).any fun e => tt.kind e = .uint8 || tt.kind e = .int32

/-- What the element of a type stands for. -/
def pointee? (tt : TypeTable) (t : TypeId) : Option TypeId :=
  (tt.elem? t).bind tt.underlying?

/-- Whether a value of type `src` can be converted to `dst`: it can be stored there, or both types stand for
the same type, or

* they are unnamed pointers to types that stand for the same type, or
* both are real numbers or both complex numbers, or
* one is a string and the other a slice of bytes or of runes, or `src` is an integer and `dst` a string. -/
def convertible (tt : TypeTable) (src dst : TypeId) : Bool :=
  if tt.assignable src dst then true
  else
    match tt.underlying? src, tt.underlying? dst with
    | some u, some v =>
        let k := tt.kind src
        let l := tt.kind dst
        u = v
          || k = .pointer && l = .pointer && !tt.isNamed src && !tt.isNamed dst
            && (tt.pointee? src).isSome && tt.pointee? src = tt.pointee? dst
          || k.isReal && l.isReal
          || k.category = .complex128 && l.category = .complex128
          || l = .string && (k.category = .int || tt.isBytesOrRunes src)
          || k = .string && tt.isBytesOrRunes dst
    | _, _ => false

end TypeTable

end GoSource
