import GoSource.Proofs.Package.Order
import Mathlib.Logic.Relation

/-!
# Containment and references

A type contains others by value: an alias what it is declared with, a declared type what it stands for, an array its
element, an interface those that it embeds.  Pointers, slices, maps, channels and functions contain nothing, but they
refer to others.

* **`ParsedFile.Contains`** is the first relation between the nodes of a file, and **`ParsedFile.Founded`** says that
  no declared type reaches a cycle of it.
* **`ParsedFile.founded_of_height`**: to see that, it is enough to compare heights.
* **`recursion_without_containment`**: not all types that are found to be recursive contain themselves.
* **`ParsedFile.Refers`** is the second relation.  **`ParsedFile.Needs`** are the steps of containment for which
  another type has to be known in full, and in a **`ParsedFile.Layered`** file no cycle of references has such a step.
-/

namespace GoSource

variable {file : ParsedFile} {x y : NodeId}

namespace ParsedFile

/-- What a name of the file is declared to be. -/
def entry? (file : ParsedFile) (name : String) : Option Entry :=
  file.decls.findSome? (Package.declares? file · name)

/-- The declaration of a type of a given name. -/
def typeSpec? (file : ParsedFile) (name : String) : Option NodeId :=
  ((file.entry? name).filter (·.role = .type)).map Entry.spec

/-- The specifications of the types that a file declares. -/
def typeSpecs (file : ParsedFile) : List NodeId :=
  (file.decls.filter (file.tree.op · = .kw .type)).flatMap file.tree.present

/-- The type expression that a declared type or an alias is declared with. -/
def definition? (file : ParsedFile) (id : NodeId) : Option NodeId :=
  if id ∈ file.typeSpecs then file.tree.part? id 1 else none

/-- The type expressions that an array or an interface contains.  A field of an interface embeds a type if it has no
names. -/
def inlined (file : ParsedFile) (id : NodeId) : List NodeId :=
  let tree := file.tree
  match tree.op id with
  | .tag .array => if (tree.part? id 0).isSome then (tree.part? id 1).toList else []
  | .kw .interface =>
      ((tree.present id).filter fun field => (tree.part? field 0).isNone).filterMap (tree.part? · 1)
  | _ => []

/-- What a type expression says that is a name, or a type in parentheses. -/
def renamed? (file : ParsedFile) (id : NodeId) : Option NodeId :=
  match file.tree.op id with
  | .lit .ident => file.typeSpec? (file.tree.literal id)
  | .op .lparen => file.tree.part? id 0
  | _ => none

/-- The type expressions and declarations that a node contains by value. -/
def contained (file : ParsedFile) (id : NodeId) : List NodeId :=
  (file.definition? id).toList ++ file.inlined id ++ (file.renamed? id).toList

/-- The node `x` contains `y` by value. -/
def Contains (file : ParsedFile) (x y : NodeId) : Prop :=
  y ∈ file.contained x

/-- No declared type reaches a cycle of containment. -/
def Founded (file : ParsedFile) : Prop :=
  ∀ spec ∈ file.typeSpecs, ∀ x, Relation.ReflTransGen file.Contains spec x → ¬ Relation.TransGen file.Contains x x

/-! ### Heights -/

/-- How many steps of containment there are from a node, up to a given number. -/
def height (file : ParsedFile) : Nat → NodeId → Nat
  | 0, _ => 0
  | bound + 1, x => ((file.contained x).map fun y => file.height bound y + 1).max?.getD 0

/-- Only nodes of the file contain others. -/
theorem index_lt_of_contains (h : file.Contains x y) : x.index < file.tree.size := by
  by_contra hge
  have hnode : file.tree.node x = {} := by
    rw [Tree.node, Array.getElem?_eq_none (Nat.le_of_not_lt hge)]
    rfl
  have hop : file.tree.op x = .illegal := by
    rw [Tree.op, hnode]
    rfl
  have hpart : file.tree.part? x 1 = none := by
    rw [Tree.part?, Tree.children, hnode]
    rfl
  rw [Contains, contained] at h
  simp [definition?, inlined, renamed?, hop, hpart] at h

/-- Where what is contained is less high, nothing is contained in itself. -/
theorem founded_of_height (bound : Nat)
    (h : ∀ i < file.tree.size, ∀ y ∈ file.contained ⟨i⟩, file.height bound y < file.height bound ⟨i⟩) : file.Founded := by
  have hlt {x y : NodeId} (hxy : Relation.TransGen file.Contains x y) :
      file.height bound y < file.height bound x := by
    induction hxy with
    | single hstep => exact h x.index (index_lt_of_contains hstep) _ hstep
    | tail _ hstep ih => exact Nat.lt_trans (h _ (index_lt_of_contains hstep) _ hstep) ih
  intro spec _ x _ hcycle
  exact Nat.lt_irrefl _ (hlt hcycle)

end ParsedFile

/-- A type that stands for a slice of itself, by way of another one, is found to be recursive if the slice comes first;
so is a type that has the shape of an array which a later type points to. -/
theorem recursion_without_containment :
    let slice := ParsedFile.ofString "a.go" "package p\ntype B []A\ntype A B\n"
    let pointer := ParsedFile.ofString "a.go" "package p\ntype X [3]T\ntype T *[3]T\n"
    let pkg := Package.new (TypeTable.new .amd64)
    (slice.diagnostics = [] ∧ slice.Founded ∧
        (pkg.resolveFile slice).2.faults.map (·.cause.message) = #["invalid recursive type A"]) ∧
      pointer.diagnostics = [] ∧ pointer.Founded ∧
        (pkg.resolveFile pointer).2.faults.map (·.cause.message) = #["invalid recursive type X"] := by
  intro slice pointer pkg
  have hslice : slice.diagnostics = [] ∧
      (pkg.resolveFile slice).2.faults.map (·.cause.message) = #["invalid recursive type A"] := by
    decide +kernel
  have hpointer : pointer.diagnostics = [] ∧
      (pkg.resolveFile pointer).2.faults.map (·.cause.message) = #["invalid recursive type X"] := by
    decide +kernel
  refine ⟨⟨hslice.1, ?_, hslice.2⟩, hpointer.1, ?_, hpointer.2⟩
  · exact ParsedFile.founded_of_height 8 (by decide +kernel)
  · exact ParsedFile.founded_of_height 8 (by decide +kernel)

/-! ### References -/

namespace ParsedFile

/-- The types of the parameters or results in a list. -/
def fieldTypes (file : ParsedFile) (list : NodeId) : List NodeId :=
  let tree := file.tree
  ((tree.present list).filterMap (tree.part? · 1)).filterMap fun typ =>
    if tree.op typ = .op .ellipsis then tree.part? typ 0 else some typ

/-- The types of the parameters and results of a signature. -/
def signatureTypes (file : ParsedFile) (id : NodeId) : List NodeId :=
  ((file.tree.part? id 0).elim [] file.fieldTypes) ++ (file.tree.part? id 1).elim [] file.fieldTypes

/-- The types of the members of an interface: those in the signature of a method, or an embedded type. -/
def memberTypes (file : ParsedFile) (field : NodeId) : List NodeId :=
  (file.tree.part? field 1).elim [] fun typ =>
    if (file.tree.part? field 0).isSome then file.signatureTypes typ else [typ]

/-- What an expression refers to. -/
def mentioned (file : ParsedFile) (id : NodeId) : List NodeId :=
  let tree := file.tree
  match tree.op id with
  | .lit .ident => ((file.entry? (tree.literal id)).map Entry.spec).toList
  | .op .lparen | .op .mul | .tag .array | .kw .map | .tag .bothDir | .tag .sendDir | .tag .recvDir => tree.present id
  | .kw .func => file.signatureTypes id
  | .kw .interface => (tree.present id).flatMap file.memberTypes
  | _ => []

/-- The specifications of the constants and variables that a file declares. -/
def valueSpecs (file : ParsedFile) : List NodeId :=
  (file.decls.filter fun decl => file.tree.op decl = .kw .const ∨ file.tree.op decl = .kw .var).flatMap
    file.tree.present

/-- What a declaration of constants, variables or a function refers to. -/
def initializers (file : ParsedFile) (id : NodeId) : List NodeId :=
  (if id ∈ file.valueSpecs then
    (file.tree.part? id 1).toList ++ (file.tree.part? id 2).elim [] file.tree.present else []) ++
  if id ∈ file.decls then (file.tree.part? id 2).toList else []

/-- The node `x` refers to `y`. -/
def Refers (file : ParsedFile) (x y : NodeId) : Prop :=
  y ∈ (file.definition? x).toList ++ file.initializers x ++ file.mentioned x

theorem refers_of_definition (h : file.definition? x = some y) : file.Refers x y := by
  rw [Refers, h]
  simp

theorem refers_of_initializers (h : y ∈ file.initializers x) : file.Refers x y :=
  List.mem_append_left _ (List.mem_append_right _ h)

theorem refers_of_mentioned (h : y ∈ file.mentioned x) : file.Refers x y :=
  List.mem_append_right _ h

/-- A name, or a type in parentheses. -/
def IsName (file : ParsedFile) (id : NodeId) : Prop :=
  file.tree.op id = .lit .ident ∨ file.tree.op id = .op .lparen

/-- The node `x` contains `y` and cannot do without knowing it in full: an alias, a type that is declared to be what
another one is, an array, and an interface. -/
def Needs (file : ParsedFile) (x y : NodeId) : Prop :=
  (file.definition? x = some y ∧ (file.tree.op x = .kw .type → file.IsName y)) ∨ y ∈ file.inlined x

/-- No cycle of references has a step for which a type has to be known in full. -/
def Layered (file : ParsedFile) : Prop :=
  ∀ x y, file.Needs x y → ¬ Relation.ReflTransGen file.Refers y x

theorem Needs.contains (h : file.Needs x y) : file.Contains x y := by
  rw [Contains, contained, List.mem_append, List.mem_append, Option.mem_toList]
  exact .inl (h.imp_left And.left)

end ParsedFile

end GoSource
