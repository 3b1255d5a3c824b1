import GoSource.Typing.Fault
import GoSource.Typing.Table

/-!
# Layouts of shapes

How the layout of a type follows from the layouts of its parts.

* `Kind.layout`: the predeclared types.
* `Layout.array`: arrays repeat their element, and only as often as it fits into the address space.
* `Layout.reference`: pointers and the like, whose size does not depend on their parts.
* `Shape.layout`: all shapes.  The layouts of the parts are asked for one by one, since asking may complete
  a part.
-/

namespace GoSource

/-- Operations on a table of types. -/
abbrev TableM := StateM TypeTable

/-- Operations on a table that can be refused.  What they changed before stays changed. -/
abbrev TypeM := ExceptT TypeFault TableM

/-- Size and alignment of the values of a predeclared type.  Constants without a type need no storage. -/
def Kind.storage (target : Target) : Kind → Nat × Nat
  | .bool | .int8 | .uint8 => (1, 1)
  | .int16 | .uint16 => (2, 2)
  | .int32 | .uint32 | .float32 => (4, 4)
  | .int64 | .uint64 | .float64 => (8, min target.pointerSize 8)
  | .int | .uint | .uintptr | .unsafePointer => (target.pointerSize, target.pointerSize)
  | .complex64 => (8, 4)
  | .complex128 => (16, min target.pointerSize 8)
  | .string => (2 * target.pointerSize, target.pointerSize)
  | _ => (0, 1)

/-- The layout of a predeclared type.  Nothing is known about the invalid type. -/
def Kind.layout (target : Target) (k : Kind) : Layout :=
  if k = .invalid then {}
  else
    let (size, align) := k.storage target
    { size := some size, align := some align, hash := Fingerprint.start.string k.name, kind := k
      traits := { complete := true, comparable := k ≠ .untypedNil, incomparable := k = .untypedNil } }

namespace Layout

/-- The layout of a type whose size does not depend on its parts: complete as soon as the fingerprint is
known. -/
def reference (kind : Kind) (size align : Nat) (hash : Fingerprint) (traits : Traits) : Layout :=
  { size := some size, align := some align, hash, kind
    traits := { traits with complete := !hash.isUnknown } }

/-- The most elements that an array may have, as far as its element is known. -/
def maxLength (target : Target) (elem : Layout) : Nat :=
  match elem.size with
  | some size => if size = 0 then target.maxSize else target.maxSize / size
  | none => target.maxSize

/-- The layout of an array of `length` elements. -/
def array (target : Target) (elem : Layout) (length : Nat) : Except TypeFault Layout :=
  if elem.maxLength target < length then .error (.arrayTooLarge length (elem.maxLength target))
  else .ok
    { size := elem.size.map (length * ·), align := elem.align
      hash := (elem.hash.byte 0x5d).word64 length, kind := .array
      traits :=
        { complete := elem.traits.complete, comparable := elem.traits.comparable
          incomparable := elem.traits.incomparable
          needsPadding := length = 0 || elem.size == some 0 } }

/-- The layout of a function type, by the fingerprints of its parameters and results. -/
def func (target : Target) (params results : Nat) (variadic : Bool) (parts : List Fingerprint) : Layout :=
  let signature := (((Fingerprint.start.string "func").word32 params).word32 results).bool variadic
  reference .func target.pointerSize target.pointerSize (parts.foldl Fingerprint.mix signature)
    { incomparable := true, variadic }

end Layout

/-- The digest of a list of methods after `h`.  Types of methods are no longer asked for once the digest is
unknown. -/
def Fingerprint.methods (query : TypeId → TableM Layout) (h : Fingerprint) :
    List Method → TableM Fingerprint
  | [] => pure h
  | m :: rest => do
      let h := ((h.string m.pkgPath).string m.name).mix (← query m.typ).hash
      if h.isUnknown then pure h else h.methods query rest

/-- The layout of a shape; `query` answers for its parts.  An array that is too long for any element is refused
before its element is looked at.  A declared type has no layout by itself. -/
def Shape.layout (target : Target) (query : TypeId → TableM Layout) : Shape → TypeM Layout
  | .basic k => pure (k.layout target)
  | .array elem length => do
      if target.maxSize < length then throw (.arrayTooLarge length target.maxSize)
      let e ← query elem
      MonadExcept.ofExcept (e.array target length)
  | .slice elem => do
      let e ← query elem
      pure (.reference .slice (3 * ptr) ptr (e.hash.byte 0x5b) { incomparable := true })
  | .pointer elem => do
      let e ← query elem
      pure (.reference .pointer ptr ptr (e.hash.byte 0x2a) { comparable := true })
  | .chan elem dir => do
      let e ← query elem
      pure (.reference .chan ptr ptr ((e.hash.byte 0x63).byte dir.code) { comparable := true })
  | .map key elem => do
      let k ← query key
      let e ← query elem
      let hash := ((Fingerprint.start.byte 0x6d).mix k.hash).mix e.hash
      pure (.reference .map ptr ptr hash { incomparable := true })
  | .func params results variadic => do
      let parts ← (params ++ results).mapM fun t => query t
      pure (.func target params.length results.length variadic (parts.map Layout.hash))
  | .interface methods => do
      let h := (Fingerprint.start.string "interface").word64 methods.length
      pure (.reference .interface (2 * ptr) ptr (← h.methods query methods) { comparable := true })
  | .builtin name inputs outputs variadic =>
      let hash := (((Fingerprint.start.string name).word32 inputs).word32 outputs).bool variadic
      pure (.reference .invalid ptr ptr hash { incomparable := true, variadic })
  | .named .. => pure {}
where
  /-- The size of a pointer. -/
  ptr : Nat := target.pointerSize

end GoSource
