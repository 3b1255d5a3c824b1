import GoSource.Proofs.Package.Keeping
import GoSource.Proofs.Typing.Canonical

/-!
# What type expressions express

A type expression expresses a type by its form: a name the type that it stands for, any other form the type that is
built of what its parts express.  What was expressed once is expressed from then on, whatever is resolved next.

* **`TypeRule`**: what a type expression expresses, given what its parts do.  **`Expresses`** closes the rules.
* **`Retains`**: what resolution keeps: names with a meaning, and all types.  **`Expresses.later`** carries over what
  type expressions express.
* **`Backed`**: the types that come up.  An invalid one means that something is wrong with the file.
-/

namespace GoSource

open TypeTable

variable {file : ParsedFile} {pkg pkg' pkg'' : Package} {D D' : NodeId → TypeId → Prop} {id : NodeId} {t u : TypeId}

/-! ### Rules -/

/-- The directions of channels, by the tags of their types. -/
def chanDir? : Token → Option ChanDir
  | .tag .bothDir => some .both
  | .tag .sendDir => some .send
  | .tag .recvDir => some .recv
  | _ => none

/-- The length of an array: a literal, or the name of a constant. -/
inductive Counts (file : ParsedFile) (pkg : Package) : NodeId → Nat → Prop
  | literal {id : NodeId} {n : Nat} (hop : file.tree.op id = .lit .int)
      (hn : Literal.integerValue? (file.tree.literal id) = some n) : Counts file pkg id n
  | constant {id : NodeId} {n : Nat} {obj : Object} {v : ConstValue} (hop : file.tree.op id = .lit .ident)
      (hobj : pkg.lookup (file.tree.literal id) = some obj) (hrole : obj.role = .constant) (hv : obj.value = some v)
      (hn : Literal.integerValue? v.literal = some n) : Counts file pkg id n

/-- The fields of a part of a signature. -/
def Tree.fields (tree : Tree) (list : Child) : List NodeId :=
  list.elim [] fun list => (tree.present list).filter (!tree.isBad ·)

/-- The number of parameters that a field declares: one a name, or one without a name. -/
def Tree.fieldCount (tree : Tree) (field : NodeId) : Nat :=
  (tree.part? field 0).elim 1 fun names => (tree.children names).length

/-- The types of the parameters that a field declares, and whether it is variadic. -/
inductive FieldRule (file : ParsedFile) (pkg : Package) (D : NodeId → TypeId → Prop) :
    NodeId → List TypeId × Bool → Prop
  | plain {field typ : NodeId} {ts : List TypeId} (htyp : file.tree.part? field 1 = some typ)
      (hop : file.tree.op typ ≠ .op .ellipsis) (hlength : ts.length = file.tree.fieldCount field)
      (hts : ∀ t ∈ ts, D typ t) : FieldRule file pkg D field (ts, false)
  | variadic {field typ elem : NodeId} {e t : TypeId} (htyp : file.tree.part? field 1 = some typ)
      (hop : file.tree.op typ = .op .ellipsis) (helem : file.tree.part? typ 0 = some elem) (he : D elem e)
      (hs : pkg.types.shape t = .slice e) : FieldRule file pkg D field ([t], true)

/-- The type of a signature. -/
inductive SignatureRule (file : ParsedFile) (pkg : Package) (D : NodeId → TypeId → Prop) : NodeId → TypeId → Prop
  | intro {id : NodeId} {t : TypeId} {params results : List (List TypeId × Bool)}
      (hparams : List.Forall₂ (FieldRule file pkg D) (file.tree.fields (file.tree.part? id 0)) params)
      (hresults : List.Forall₂ (FieldRule file pkg D) (file.tree.fields (file.tree.part? id 1)) results)
      (hs : pkg.types.shape t =
        .func (params.flatMap Prod.fst) (results.flatMap Prod.fst) (params.any Prod.snd)) :
      SignatureRule file pkg D id t

/-- A member of an interface. -/
inductive MemberRule (file : ParsedFile) (pkg : Package) (D : NodeId → TypeId → Prop) :
    NodeId → Meanings.Member → Prop
  | method {field typ names name : NodeId} {t : TypeId} (htyp : file.tree.part? field 1 = some typ)
      (hnames : file.tree.part? field 0 = some names) (hname : file.tree.part? names 0 = some name)
      (ht : SignatureRule file pkg D typ t) :
      MemberRule file pkg D field
        (.method { name := file.tree.literal name, pkgPath := pkg.methodPath (file.tree.literal name), typ := t })
  | embedded {field typ : NodeId} {t : TypeId} (htyp : file.tree.part? field 1 = some typ)
      (hnames : file.tree.part? field 0 = none) (ht : D typ t) : MemberRule file pkg D field (.embedded t)

/-- The methods among the members of an interface. -/
def methodsOf (members : List Meanings.Member) : List Method :=
  members.filterMap fun
    | .method m => some m
    | .embedded _ => none

/-- The embedded types among the members of an interface. -/
def embeddedOf (members : List Meanings.Member) : List TypeId :=
  members.filterMap fun
    | .embedded t => some t
    | .method _ => none

/-- What a type expression expresses, if `D` says what its parts do. -/
inductive TypeRule (file : ParsedFile) (pkg : Package) (D : NodeId → TypeId → Prop) : NodeId → TypeId → Prop
  | name {id : NodeId} {t : TypeId} {obj : Object} (hop : file.tree.op id = .lit .ident)
      (hobj : pkg.lookup (file.tree.literal id) = some obj) (hrole : obj.role = .type) (ht : obj.typ = some t) :
      TypeRule file pkg D id t
  | paren {id c : NodeId} {t : TypeId} (hop : file.tree.op id = .op .lparen) (hpart : file.tree.part? id 0 = some c)
      (ht : D c t) : TypeRule file pkg D id t
  | pointer {id c : NodeId} {e t : TypeId} (hop : file.tree.op id = .op .mul) (hpart : file.tree.part? id 0 = some c)
      (he : D c e) (hs : pkg.types.shape t = .pointer e) : TypeRule file pkg D id t
  | slice {id c : NodeId} {e t : TypeId} (hop : file.tree.op id = .tag .array) (hlength : file.tree.part? id 0 = none)
      (hpart : file.tree.part? id 1 = some c) (he : D c e) (hs : pkg.types.shape t = .slice e) :
      TypeRule file pkg D id t
  | array {id c length : NodeId} {e t : TypeId} {n : Nat} (hop : file.tree.op id = .tag .array)
      (hlength : file.tree.part? id 0 = some length) (hn : Counts file pkg length n)
      (hpart : file.tree.part? id 1 = some c) (he : D c e) (hs : pkg.types.shape t = .array e n) :
      TypeRule file pkg D id t
  | map {id c c' : NodeId} {k e t : TypeId} (hop : file.tree.op id = .kw .map)
      (hkey : file.tree.part? id 0 = some c) (hk : D c k) (helem : file.tree.part? id 1 = some c') (he : D c' e)
      (hs : pkg.types.shape t = .map k e) : TypeRule file pkg D id t
  | chan {id c : NodeId} {e t : TypeId} {dir : ChanDir} (hop : chanDir? (file.tree.op id) = some dir)
      (hpart : file.tree.part? id 0 = some c) (he : D c e) (hs : pkg.types.shape t = .chan e dir) :
      TypeRule file pkg D id t
  | func {id : NodeId} {t : TypeId} (hop : file.tree.op id = .kw .func) (ht : SignatureRule file pkg D id t) :
      TypeRule file pkg D id t
  | interface {id : NodeId} {t : TypeId} {members : List Meanings.Member} {ms : List Method}
      (hop : file.tree.op id = .kw .interface)
      (hmembers : List.Forall₂ (MemberRule file pkg D) (file.tree.fields (some id)) members)
      (hmerge : pkg.types.mergeMethods (embeddedOf members) (methodsOf members) = .ok ms)
      (hs : pkg.types.shape t = .interface ms) : TypeRule file pkg D id t

/-- The type expression `id` expresses the type `t`, by rules all the way down. -/
inductive Expresses (file : ParsedFile) (pkg : Package) : NodeId → TypeId → Prop
  | of_rule {D : NodeId → TypeId → Prop} {id : NodeId} {t : TypeId} (hrule : TypeRule file pkg D id t)
      (hparts : ∀ x u, D x u → Expresses file pkg x u) : Expresses file pkg id t

theorem TypeRule.expresses (h : TypeRule file pkg (Expresses file pkg) id t) : Expresses file pkg id t :=
  .of_rule h fun _ _ hx => hx

/-! ### What is retained -/

/-- Whether something is wrong with a file: a part of it could not be read, or a fault was found. -/
def Package.Flawed (file : ParsedFile) (pkg : Package) : Prop :=
  (∃ id, file.tree.isBad id = true) ∨ pkg.faults ≠ #[]

/-- An entity stays what it is, and what it has been given. -/
structure Object.Gains (obj obj' : Object) : Prop where
  role_eq : obj'.role = obj.role
  typ : ∀ t, obj.typ = some t → obj'.typ = some t
  value : ∀ v, obj.value = some v → obj'.value = some v

namespace Object.Gains

variable {obj obj' obj'' : Object}

theorem refl (obj : Object) : obj.Gains obj :=
  ⟨rfl, fun _ ht => ht, fun _ hv => hv⟩

theorem trans (h : obj.Gains obj') (h' : obj'.Gains obj'') : obj.Gains obj'' :=
  ⟨h'.role_eq.trans h.role_eq, fun t ht => h'.typ t (h.typ t ht), fun v hv => h'.value v (h.value v hv)⟩

end Object.Gains

/-- What resolution keeps: the meanings of names, the types, and what is wrong. -/
structure Retains (file : ParsedFile) (pkg pkg' : Package) : Prop where
  names : ∀ name obj, pkg.lookup name = some obj → ∃ obj', pkg'.lookup name = some obj' ∧ obj.Gains obj'
  objects : ∀ entry : Entry, entry.Fits file → ∀ obj, pkg.objects.get? entry.name = some obj →
    ∃ obj', pkg'.objects.get? entry.name = some obj' ∧ obj.Gains obj'
  extends_types : Extends pkg.types pkg'.types
  scope_eq : pkg'.scope = pkg.scope
  outer_eq : pkg'.outer = pkg.outer
  path_eq : pkg'.path = pkg.path
  flawed : pkg.Flawed file → pkg'.Flawed file

namespace Retains

theorem refl (pkg : Package) : Retains file pkg pkg :=
  ⟨fun _ obj hobj => ⟨obj, hobj, .refl obj⟩, fun _ _ obj hobj => ⟨obj, hobj, .refl obj⟩, .refl _, rfl, rfl, rfl,
    fun hflawed => hflawed⟩

theorem trans (h : Retains file pkg pkg') (h' : Retains file pkg' pkg'') : Retains file pkg pkg'' := by
  refine ⟨fun name obj hobj => ?_, fun entry hentry obj hobj => ?_, h.extends_types.trans h'.extends_types,
    h'.scope_eq.trans h.scope_eq, h'.outer_eq.trans h.outer_eq, h'.path_eq.trans h.path_eq,
    fun hflawed => h'.flawed (h.flawed hflawed)⟩
  · obtain ⟨obj', hobj', hgains⟩ := h.names name obj hobj
    obtain ⟨obj'', hobj'', hgains'⟩ := h'.names name obj' hobj'
    exact ⟨obj'', hobj'', hgains.trans hgains'⟩
  · obtain ⟨obj', hobj', hgains⟩ := h.objects entry hentry obj hobj
    obtain ⟨obj'', hobj'', hgains'⟩ := h'.objects entry hentry obj' hobj'
    exact ⟨obj'', hobj'', hgains.trans hgains'⟩

theorem methodPath_eq (h : Retains file pkg pkg') (name : String) : pkg'.methodPath name = pkg.methodPath name := by
  rw [Package.methodPath, Package.methodPath, h.path_eq]

end Retains

/-! ### Rules at later times -/

section

variable (hretains : Retains file pkg pkg')
include hretains

theorem Counts.later {n : Nat} (h : Counts file pkg id n) : Counts file pkg' id n := by
  cases h with
  | literal hop hn => exact .literal hop hn
  | constant hop hobj hrole hv hn =>
      obtain ⟨obj', hobj', hgains⟩ := hretains.names _ _ hobj
      exact .constant hop hobj' (hgains.role_eq.trans hrole) (hgains.value _ hv) hn

theorem shape_later {s : Shape} (hs : pkg.types.shape t = s) (hbuilt : s.isDeclared = false)
    (hvalid : s ≠ .basic .invalid) : pkg'.types.shape t = s :=
  hretains.extends_types.shape_of_built hs hbuilt hvalid

variable (hD : ∀ x u, D x u → D' x u)
include hD

theorem FieldRule.later {x : List TypeId × Bool} (h : FieldRule file pkg D id x) : FieldRule file pkg' D' id x := by
  cases h with
  | plain htyp hop hlength hts => exact .plain htyp hop hlength fun t ht => hD _ t (hts t ht)
  | variadic htyp hop helem he hs =>
      exact .variadic htyp hop helem (hD _ _ he) (shape_later hretains hs rfl (by simp))

theorem SignatureRule.later (h : SignatureRule file pkg D id t) : SignatureRule file pkg' D' id t := by
  cases h with
  | intro hparams hresults hs =>
      exact .intro (hparams.imp fun _ _ h => h.later hretains hD) (hresults.imp fun _ _ h => h.later hretains hD)
        (shape_later hretains hs rfl (by simp))

theorem MemberRule.later {member : Meanings.Member} (h : MemberRule file pkg D id member) :
    MemberRule file pkg' D' id member := by
  cases h with
  | method htyp hnames hname ht =>
      rw [← hretains.methodPath_eq]
      exact .method htyp hnames hname (ht.later hretains hD)
  | embedded htyp hnames ht => exact .embedded htyp hnames (hD _ _ ht)

theorem TypeRule.later (h : TypeRule file pkg D id t) : TypeRule file pkg' D' id t := by
  have hshape {s : Shape} (hs : pkg.types.shape t = s) (hbuilt : s.isDeclared = false)
      (hvalid : s ≠ .basic .invalid) : pkg'.types.shape t = s := shape_later hretains hs hbuilt hvalid
  cases h with
  | name hop hobj hrole ht =>
      obtain ⟨obj', hobj', hgains⟩ := hretains.names _ _ hobj
      exact .name hop hobj' (hgains.role_eq.trans hrole) (hgains.typ _ ht)
  | paren hop hpart ht => exact .paren hop hpart (hD _ _ ht)
  | pointer hop hpart he hs => exact .pointer hop hpart (hD _ _ he) (hshape hs rfl (by simp))
  | slice hop hlength hpart he hs => exact .slice hop hlength hpart (hD _ _ he) (hshape hs rfl (by simp))
  | array hop hlength hn hpart he hs =>
      exact .array hop hlength (hn.later hretains) hpart (hD _ _ he) (hshape hs rfl (by simp))
  | map hop hkey hk helem he hs => exact .map hop hkey (hD _ _ hk) helem (hD _ _ he) (hshape hs rfl (by simp))
  | chan hop hpart he hs => exact .chan hop hpart (hD _ _ he) (hshape hs rfl (by simp))
  | func hop ht => exact .func hop (ht.later hretains hD)
  | interface hop hmembers hmerge hs =>
      exact .interface hop (hmembers.imp fun _ _ h => h.later hretains hD)
        (hretains.extends_types.mergeMethods_eq hmerge) (hshape hs rfl (by simp))

omit hD in
/-- What was expressed goes on to be expressed. -/
theorem Expresses.later (h : Expresses file pkg id t) : Expresses file pkg' id t := by
  induction h with
  | of_rule hrule _ ih => exact .of_rule (hrule.later hretains fun _ _ h => h) ih

end

/-! ### Types that come up -/

/-- What is known of every type that resolution comes across: it belongs to a name or is built, or it is the invalid
type, for which there is a reason. -/
inductive Backed (file : ParsedFile) (pkg : Package) (t : TypeId) : Prop
  | named {name : String} {obj : Object} (hobj : pkg.lookup name = some obj) (hrole : obj.role = .type)
      (ht : obj.typ = some t) : Backed file pkg t
  | built (hkind : (pkg.types.shape t).kind ≠ .invalid) : Backed file pkg t
  | invalid (ht : t = TypeTable.invalid) (hflawed : pkg.Flawed file) : Backed file pkg t

theorem Backed.later (hretains : Retains file pkg pkg') (h : Backed file pkg t) : Backed file pkg' t := by
  cases h with
  | named hobj hrole ht =>
      obtain ⟨obj', hobj', hgains⟩ := hretains.names _ _ hobj
      exact .named hobj' (hgains.role_eq.trans hrole) (hgains.typ _ ht)
  | built hkind => exact .built (by rwa [hretains.extends_types.kind_of_shape rfl hkind])
  | invalid ht hflawed => exact .invalid ht (hretains.flawed hflawed)

/-- A type that is built in a certain way. -/
theorem Backed.of_shape {s : Shape} (hs : pkg.types.shape t = s) (hkind : s.kind ≠ .invalid) : Backed file pkg t :=
  .built (by rwa [hs])

theorem SignatureRule.backed (h : SignatureRule file pkg D id t) : Backed file pkg t := by
  cases h with
  | intro _ _ hs => exact .of_shape hs nofun

theorem Expresses.backed (h : Expresses file pkg id t) : Backed file pkg t := by
  induction h with
  | of_rule hrule _ ih =>
      cases hrule with
      | name _ hobj hrole ht => exact .named hobj hrole ht
      | paren _ _ ht => exact ih _ _ ht
      | pointer _ _ _ hs => exact .of_shape hs nofun
      | slice _ _ _ _ hs => exact .of_shape hs nofun
      | array _ _ _ _ _ hs => exact .of_shape hs nofun
      | map _ _ _ _ _ hs => exact .of_shape hs nofun
      | chan _ _ _ hs => exact .of_shape hs nofun
      | func _ ht => exact ht.backed
      | interface _ _ _ hs => exact .of_shape hs nofun

end GoSource
