import GoSource.Proofs.Package.Conduct

/-!
# What the rules of resolution do

Every rule of resolution does a piece of work, if the meanings that it is a function of do.  It answers with types
that the table knows.

* **`Meanings.Lawful`**: what is asked of the meanings.
* One lemma a rule.
* **`lawful_meanings`**: the meanings that resolution uses are lawful.
-/

namespace GoSource

open TypeTable

/-- A type expression denotes a type that the table knows, and a signature that of a function. -/
def Denoted (file : ParsedFile) (id : NodeId) (t : TypeId) (pkg : Package) : Prop :=
  pkg.types.Knows t ∧
    (file.tree.op id = .kw .func → pkg.types.isInvalid t = true ∨ (pkg.types.shape t).kind = .func)

/-- A type that is known if it is there. -/
def KnownIfSome (o : Option TypeId) (pkg : Package) : Prop :=
  ∀ t, o = some t → pkg.types.Knows t

/-- Meanings that do what is asked of them. -/
structure Meanings.Lawful (file : ParsedFile) (m : Meanings) : Prop where
  type : ∀ {self : Option Entry} {root id : NodeId} {P : Package → Prop}, file.tree.Under root id →
    Does file self root P (m.type id) (Denoted file id)
  constant : ∀ {self : Option Entry} {root id : NodeId} {P : Package → Prop}, file.tree.Under root id →
    Does file self root P (m.constant id) fun x pkg => pkg.types.Knows x.2
  value : ∀ {self : Option Entry} {root id : NodeId} {P : Package → Prop}, file.tree.Under root id →
    Does file self root P (m.value id) KnownIfSome
  declaration : ∀ {self : Option Entry} {root : NodeId} {P : Package → Prop} {entry : Entry}, entry.Fits file →
    Does file self root P (m.declaration entry) fun _ _ => True

variable {file : ParsedFile} {self : Option Entry} {root id : NodeId} {P : Package → Prop}

theorem lasting_knownIfSome (o : Option TypeId) : Lasting file (KnownIfSome o) :=
  lasting_forall fun t => (lasting_knows t).imp

theorem knownIfSome_none (pkg : Package) : KnownIfSome none pkg :=
  nofun

theorem knownIfSome_some {t : TypeId} {pkg : Package} (h : pkg.types.Knows t) : KnownIfSome (some t) pkg := by
  rintro u ⟨⟩
  exact h

/-- The types of parameters are known, and a variadic one is a slice at their end, as far as it is valid. -/
def Listed (x : List TypeId × Bool) (pkg : Package) : Prop :=
  (∀ t ∈ x.1, pkg.types.Knows t) ∧ (x.2 = true → VariadicEnd x.1 pkg)

theorem lasting_listed (x : List TypeId × Bool) : Lasting file (Listed x) :=
  (lasting_forall fun t => (lasting_knows t).imp).and (lasting_variadicEnd x.1).imp

/-- The parameters of one field before those of others. -/
theorem Listed.append {x y : List TypeId × Bool} {pkg : Package} (hx : Listed x pkg) (hy : Listed y pkg)
    (hlast : x.2 = true → y.1 = []) : Listed (x.1 ++ y.1, x.2 || y.2) pkg := by
  refine ⟨fun t ht => (List.mem_append.1 ht).elim (hx.1 t) (hy.1 t), fun hvariadic => ?_⟩
  by_cases hfirst : x.2 = true
  · rw [hlast hfirst, List.append_nil]
    exact hx.2 hfirst
  · obtain ⟨t, ht, hslice⟩ := hy.2 (by simpa [hfirst] using hvariadic)
    refine ⟨t, ?_, hslice⟩
    rw [List.getLast?_append, ht]
    rfl

/-- A declared type. -/
def IsDeclared (t : TypeId) (pkg : Package) : Prop :=
  ∃ pkgPath name bound ms, pkg.types.shape t = .named pkgPath name bound ms

theorem lasting_isDeclared (t : TypeId) : Lasting file (IsDeclared t) := by
  rintro self pkg pkg' es horderly hwork ⟨pkgPath, name, bound, ms, hs⟩
  obtain ⟨bound', ms', hs', -⟩ := (hwork.steady.reaches.grows horderly.regular.toSound).named_eq hs
  exact ⟨pkgPath, name, bound', ms', hs'⟩

/-- The types of a member are known, and that of a method is one of functions. -/
def Meanings.Member.Known (pkg : Package) : Meanings.Member → Prop
  | .method f => pkg.types.Knows f.typ ∧ (pkg.types.shape f.typ).kind = .func
  | .embedded t => pkg.types.Knows t

theorem lasting_member (x : Meanings.Member) : Lasting file fun pkg => x.Known pkg := by
  cases x with
  | method f => exact (lasting_knows f.typ).and (lasting_func f.typ)
  | embedded t => exact lasting_knows t

theorem Entry.Fits.under {entry : Entry} (h : entry.Fits file) (hrole : entry.role = .type) :
    file.tree.Under entry.spec entry.name := by
  cases h with
  | type _ _ _ hname => exact .single (Tree.mem_present_of_part? hname)
  | value _ hop => rcases hop with ⟨-, rfl⟩ | ⟨-, rfl⟩ <;> cases hrole
  | function => cases hrole
  | import_ => cases hrole

/-- All names of a declaration of constants or variables stand for the same kind of thing. -/
theorem Entry.Fits.named {entry : Entry} (h : entry.Fits file)
    (hvalue : entry.role = .constant ∨ entry.role = .variable) {name : NodeId}
    (hname : name ∈ (file.tree.part? entry.spec 0).elim [] file.tree.present) :
    ({ entry with name } : Entry).Fits file := by
  cases h with
  | value hdecl hop hspec hpart =>
      rw [hpart] at hname
      exact .value hdecl hop hspec hpart hname
  | type => simp at hvalue
  | function => simp at hvalue
  | import_ => simp at hvalue

namespace Meanings

variable {m : Meanings} (hm : m.Lawful file)
include hm

omit hm in
theorem predeclared_does (hid : file.tree.Under root id) (name : String) :
    Does file self root P
      (do
        match (← get).predeclared? name with
        | some obj => return obj
        | none => ResolveM.fail id (.undefined name))
      fun obj pkg => KnownIfSome obj.typ pkg := by
  refine .get fun q hq => ?_
  cases hfind : q.predeclared? name with
  | none => exact .fail hid _
  | some obj =>
      refine .pure ?_
      rintro pkg - ⟨-, rfl⟩
      exact hq.predeclared obj (List.mem_of_find?_eq_some hfind)

theorem object_does (hid : file.tree.Under root id) :
    Does file self root P (m.object id) fun obj pkg => KnownIfSome obj.typ pkg := by
  refine .any (.tree (.check hid fun _ => .get fun q hq => ?_))
  cases hentry : q.declared? (file.tree.literal id) with
  | none => exact predeclared_does hid _
  | some entry =>
      refine .any ((hm.declaration (hq.declared _ entry hentry)).bind lasting_true fun _ => .get fun q' hq' => ?_)
      cases hobj : q'.objects.get? entry.name with
      | none => exact predeclared_does hid _
      | some obj =>
          refine .pure ?_
          rintro pkg - ⟨-, rfl⟩
          exact fun t ht => hq'.known _ obj t hobj ht

/-! ### Types -/

theorem component_does (place : Nat) (hid : file.tree.Under root id) :
    Does file self root P (m.component id place) KnownIfSome := by
  refine .any (.part hid fun c _ hc => (hm.type hc).bind lasting_true fun t => .types fun tt => .pure ?_)
  rintro pkg - ⟨⟨-, ht, -⟩, -⟩
  split
  · exact knownIfSome_none pkg
  · exact knownIfSome_some ht

theorem typeName_does (hid : file.tree.Under root id) :
    Does file self root P (m.typeName id) fun t pkg => pkg.types.Knows t := by
  refine .any ((object_does hm hid).bind lasting_true fun obj => .check hid fun _ => ?_)
  cases htyp : obj.typ with
  | none => exact .fail hid _
  | some t => exact .pure fun pkg _ h => h.2 t rfl

theorem lengthLiteral_does (hid : file.tree.Under root id) :
    Does file self root P (m.lengthLiteral id) fun _ _ => True := by
  refine .any (.tree ?_)
  split
  · exact .pure fun _ _ _ => trivial
  · exact .fail hid _
  · refine (object_does hm hid).bind lasting_true fun obj => ?_
    split
    · exact .ite (fun _ => .pure fun _ _ _ => trivial) fun _ => .fail hid _
    · exact .fail hid _
  · exact .fail hid _

theorem arrayLength_does (hid : file.tree.Under root id) :
    Does file self root P (m.arrayLength id) fun _ _ => True := by
  refine .any ((lengthLiteral_does hm hid).bind lasting_true fun literal => ?_)
  cases Literal.integerValue? literal with
  | none => exact .fail hid _
  | some n => exact .pure fun _ _ _ => trivial

omit hm in
/-- A type built of one other type, which is never refused. -/
theorem build_does {s : Shape} (op : Operation) (hop : ∀ tt, op.run tt = (intern s tt).2)
    (hbuilt : s.isDeclared = false) (harray : ∀ e n, s ≠ .array e n)
    (hparts : ∀ part ∈ s.components, part ∈ op.handles)
    (hknown : ∀ pkg, P pkg → ∀ t ∈ op.handles, pkg.types.Knows t) :
    Does file self root P (some <$> ResolveM.build (intern s)) KnownIfSome :=
  (Does.build op hop hbuilt harray hparts hknown).map fun _ _ _ h => knownIfSome_some h.1

omit hm in
theorem buildArray_does (hid : file.tree.Under root id) (elem? : Option TypeId) (length? : Option Nat) :
    Does file self root (KnownIfSome elem?)
      (match elem?, length? with
      | some elem, some length => some <$> ResolveM.buildAt id (TypeTable.newArray elem length)
      | some elem, none => some <$> ResolveM.build (TypeTable.newSlice elem)
      | none, _ => return none)
      KnownIfSome := by
  cases elem? with
  | none => exact .pure fun pkg _ _ => knownIfSome_none pkg
  | some elem =>
      have hknown (pkg : Package) (h : KnownIfSome (some elem) pkg) : ∀ t ∈ [elem], pkg.types.Knows t := by
        simpa using h elem rfl
      cases length? with
      | none => exact build_does (.slice elem) (fun _ => rfl) rfl (by simp) (fun _ h => h) hknown
      | some length =>
          refine (Does.buildAt (Q := fun t pkg => pkg.types.Knows t) (.array elem length) hid (fun _ => rfl)
            (fun _ _ ht => shape_intern_of_knows _ ht) hknown ?_ ?_).map fun _ _ _ h => knownIfSome_some h
          · intro pkg horderly hpkg t ht
            exact ((horderly.regular.toSound.intern (s := .array elem length) rfl (hknown pkg hpkg)).2 t ht).1
          · exact fun pkg _ _ fault hfault => .inl (array_refused hfault)

theorem arrayType?_does (hid : file.tree.Under root id) : Does file self root P (m.arrayType? id) KnownIfSome := by
  refine .any ((component_does hm 1 hid).bind lasting_true fun elem? => .tree ?_)
  cases hpart : file.tree.part? id 0 with
  | none => exact (buildArray_does hid elem? none).pre fun _ => And.right
  | some length =>
      have hlength := hid.tail (Tree.mem_present_of_part? hpart)
      refine .bind (Q := fun _ _ => True) ((arrayLength_does hm hlength).map fun _ _ _ _ => trivial)
        (lasting_true.and (lasting_knownIfSome elem?)) fun length? => ?_
      exact (buildArray_does hid elem? length?).pre fun _ h => h.1.2

/-! ### Functions -/

theorem fieldTypes_does (final : Bool) (hid : file.tree.Under root id) :
    Does file self root P (m.fieldTypes final id) fun x pkg => Listed x pkg ∧ (x.2 = true → final = true) := by
  refine .any (.tree (.part hid fun typ _ htyp => .ite (fun _ => .check htyp fun hfinal => ?_) fun _ => ?_))
  · have hfinal : final = true := by
      cases final with
      | true => rfl
      | false => exact absurd (Bool.true_or _) hfinal
    have hslice (t : TypeId) : Does file self root (fun pkg => pkg.types.Knows t)
        (do return ([← ResolveM.build (TypeTable.newSlice t)], true))
        fun x pkg => Listed x pkg ∧ (x.2 = true → final = true) := by
      have hbuild : Does file self root (fun pkg => pkg.types.Knows t) (ResolveM.build (TypeTable.newSlice t))
          fun u pkg => pkg.types.Knows u ∧ pkg.types.shape u = .slice t :=
        .build (.slice t) (fun _ => rfl) rfl (by simp) (fun _ h => h) fun pkg h => by simpa [Operation.handles] using h
      refine hbuild.bind (lasting_knows t) fun u => .pure ?_
      rintro pkg - ⟨-, hu, hs⟩
      refine ⟨⟨by simpa using hu, fun _ => ⟨u, rfl, hu, .inr ?_⟩⟩, fun _ => hfinal⟩
      rw [kind, hs]
      rfl
    refine .part htyp fun elem _ helem => (hm.type helem).bind lasting_true fun t => .types fun tt => ?_
    refine .ite (fun hinvalid => .pure ?_) fun _ => (hslice t).pre fun _ h => h.1.2.1
    rintro pkg - ⟨⟨-, ht, -⟩, rfl⟩
    exact ⟨⟨by simpa using ht, fun _ => ⟨t, rfl, ht, .inl hinvalid⟩⟩, fun _ => hfinal⟩
  · refine (hm.type htyp).bind lasting_true fun t => .pure ?_
    rintro pkg - ⟨-, ht, -⟩
    refine ⟨⟨fun u hu => ?_, fun h => absurd h Bool.false_ne_true⟩, fun h => absurd h Bool.false_ne_true⟩
    rw [List.eq_of_mem_replicate hu]
    exact ht

/-- The fields of a list: only the last one is variadic. -/
theorem fieldListTypes_does (mayBeVariadic : Bool) (fields : List NodeId)
    (hfields : ∀ x ∈ fields, file.tree.Under root x) :
    Does file self root P (m.fieldListTypes mayBeVariadic fields) fun x pkg =>
      Listed x pkg ∧ (fields = [] → x = ([], false)) := by
  refine .any ?_
  induction fields with
  | nil => exact .pure fun _ _ _ => ⟨⟨nofun, nofun⟩, fun _ => rfl⟩
  | cons field rest ih =>
      have hrest := ih fun x hx => hfields x (List.mem_cons_of_mem _ hx)
      refine (fieldTypes_does hm _ (hfields field List.mem_cons_self)).bind lasting_true fun first => ?_
      refine hrest.any.bind (lasting_true.and ((lasting_listed first).and (lasting_const _))) fun others => .pure ?_
      rintro pkg - ⟨⟨-, hlisted, hfinal⟩, hothers, hnil⟩
      refine ⟨hlisted.append hothers fun hvariadic => ?_, nofun⟩
      have hempty := (Bool.and_eq_true_iff.1 (hfinal hvariadic)).2
      exact congrArg Prod.fst (hnil (List.isEmpty_iff.1 hempty))

theorem signaturePart_does (mayBeVariadic : Bool) (place : Nat) (hid : file.tree.Under root id) :
    Does file self root P (m.signaturePart mayBeVariadic (file.tree.part? id place)) Listed := by
  refine .tree ((fieldListTypes_does hm mayBeVariadic _ fun x hx => ?_).mono fun _ _ _ h => h.1)
  cases hpart : file.tree.part? id place with
  | none =>
      rw [hpart] at hx
      cases hx
  | some list =>
      rw [hpart] at hx
      exact (hid.tail (Tree.mem_present_of_part? hpart)).tail (List.mem_filter.1 hx).1

omit hm in
/-- A function whose types are valid is never refused. -/
theorem newFunc_does {params results : List TypeId} {variadic : Bool} (hid : file.tree.Under root id)
    (hparams : ∀ pkg, P pkg → Listed (params, variadic) pkg) (hresults : ∀ pkg, P pkg → ∀ t ∈ results, pkg.types.Knows t)
    (hvalid : ∀ pkg, P pkg → ∀ t ∈ params, pkg.types.isInvalid t = false) :
    Does file self root P (ResolveM.buildAt id (TypeTable.newFunc params results variadic)) fun t pkg =>
      pkg.types.Knows t ∧ (pkg.types.shape t).kind = .func := by
  have hrun (pkg : Package) (hpkg : P pkg) :
      newFunc params results variadic pkg.types = intern (.func params results variadic) pkg.types := by
    rcases newFunc_cases params results variadic pkg.types with ⟨hv, hne, -⟩ | ⟨-, hrun⟩
    · obtain ⟨t, hlast, -, hinvalid | hslice⟩ := (hparams pkg hpkg).2 hv
      · rw [hvalid pkg hpkg t (List.mem_of_getLast? hlast)] at hinvalid
        cases hinvalid
      · exact absurd (by rw [hlast, Option.map_some, hslice]) hne
    · exact hrun
  have hknown (pkg : Package) (hpkg : P pkg) : ∀ t ∈ params ++ results, pkg.types.Knows t :=
    fun t ht => (List.mem_append.1 ht).elim ((hparams pkg hpkg).1 t) (hresults pkg hpkg t)
  refine .buildAt (.func params results variadic) hid (fun _ => rfl) ?_ hknown ?_ ?_
  · intro tt t ht
    rcases newFunc_cases params results variadic tt with ⟨-, -, hrun⟩ | ⟨-, hrun⟩
    · rw [hrun]
    · rw [hrun]
      exact shape_intern_of_knows _ ht
  · intro pkg horderly hpkg t ht
    rw [hrun pkg hpkg] at ht
    obtain ⟨hknows, hs⟩ := (horderly.regular.toSound.intern (s := .func params results variadic) rfl
      (hknown pkg hpkg)).2 t ht
    show (newFunc params results variadic pkg.types).2.Knows t ∧
      ((newFunc params results variadic pkg.types).2.shape t).kind = .func
    rw [hrun pkg hpkg]
    exact ⟨hknows, by rw [hs]; rfl⟩
  · intro pkg horderly hpkg fault hfault
    obtain ⟨t, tt, hgranted⟩ := granted_intern (s := .func params results variadic) nofun pkg.types
    rw [hrun pkg hpkg, hgranted] at hfault
    cases hfault

theorem signature?_does (hid : file.tree.Under root id) :
    Does file self root P (m.signature? id) fun o pkg =>
      ∀ t, o = some t → pkg.types.Knows t ∧ (pkg.types.shape t).kind = .func := by
  refine .any (.tree ((signaturePart_does hm true 0 hid).bind lasting_true fun params => ?_))
  refine (signaturePart_does hm false 1 hid).bind (lasting_true.and (lasting_listed params)) fun results => ?_
  refine .types fun tt => .ite (fun _ => .pure fun _ _ _ => nofun) fun hvalid => ?_
  refine (newFunc_does hid (fun _ h => h.1.1.2) (fun _ h => h.1.2.1) ?_).map ?_
  · rintro pkg ⟨-, rfl⟩ t ht
    by_contra hinvalid
    exact hvalid (List.any_eq_true.2 ⟨t, List.mem_append_left _ ht, by simpa using hinvalid⟩)
  · rintro t pkg - h u ⟨⟩
    exact h

/-! ### Interfaces -/

theorem embedded?_does (hid : file.tree.Under root id) : Does file self root P (m.embedded? id) KnownIfSome := by
  refine .any (.tree (.check hid fun _ => (hm.type hid).bind lasting_true fun t => .types fun tt => ?_))
  refine .check hid fun _ => .ite (fun _ => .pure fun pkg _ _ => knownIfSome_none pkg) fun _ => .check hid fun _ => ?_
  exact .pure fun pkg _ h => knownIfSome_some h.1.2.1

theorem member?_does (hid : file.tree.Under root id) :
    Does file self root P (m.member? id) fun o pkg => ∀ x, o = some x → x.Known pkg := by
  refine .any (.tree (.part hid fun typ _ htyp => ?_))
  cases hpart : file.tree.part? id 0 with
  | none =>
      refine (embedded?_does hm htyp).bind lasting_true fun o => .pure ?_
      rintro pkg - ⟨-, ho⟩ x hx
      obtain ⟨t, rfl, rfl⟩ := Option.map_eq_some_iff.1 hx
      exact ho t rfl
  | some names =>
      have hnames := hid.tail (Tree.mem_present_of_part? hpart)
      refine .part hnames fun name _ _ => (signature?_does hm htyp).bind lasting_true fun o => ?_
      cases o with
      | none => exact .pure fun _ _ _ => nofun
      | some t =>
          refine .get fun q _ => .pure ?_
          rintro pkg - ⟨⟨-, ht⟩, -⟩ x ⟨⟩
          exact ht t rfl

theorem members?_does (fields : List NodeId) (hfields : ∀ x ∈ fields, file.tree.Under root x) :
    Does file self root P (m.members? fields) fun o pkg => ∀ xs, o = some xs → ∀ x ∈ xs, x.Known pkg := by
  refine .any ?_
  induction fields with
  | nil =>
      refine .pure ?_
      rintro pkg - - xs ⟨⟩ x hx
      cases hx
  | cons field rest ih =>
      have hrest := ih fun x hx => hfields x (List.mem_cons_of_mem _ hx)
      refine (member?_does hm (hfields field List.mem_cons_self)).bind lasting_true fun o => ?_
      cases o with
      | none => exact .pure fun _ _ _ => nofun
      | some first =>
          refine hrest.any.bind (lasting_true.and (lasting_forall fun x => (lasting_member x).imp)) fun others => ?_
          refine .pure ?_
          rintro pkg - ⟨⟨-, hfirst⟩, hothers⟩ xs hxs x hx
          obtain ⟨others', rfl, rfl⟩ := Option.map_eq_some_iff.1 hxs
          rcases List.mem_cons.1 hx with rfl | hx
          · exact hfirst x rfl
          · exact hothers others' rfl x hx

omit hm in
/-- An interface of functions is refused for what its source says, or for too many methods. -/
theorem newInterface_does {embedded : List TypeId} {direct : List Method} (hid : file.tree.Under root id)
    (hembedded : ∀ pkg, P pkg → ∀ t ∈ embedded, pkg.types.Knows t)
    (hdirect : ∀ pkg, P pkg → ∀ f ∈ direct, pkg.types.Knows f.typ ∧ (pkg.types.shape f.typ).kind = .func) :
    Does file self root P (ResolveM.buildAt id (TypeTable.newInterface embedded direct)) fun t pkg =>
      pkg.types.Knows t := by
  have hknown (pkg : Package) (hpkg : P pkg) : ∀ t ∈ embedded ++ direct.map Method.typ, pkg.types.Knows t := by
    intro t ht
    rcases List.mem_append.1 ht with ht | ht
    · exact hembedded pkg hpkg t ht
    · obtain ⟨f, hf, rfl⟩ := List.mem_map.1 ht
      exact (hdirect pkg hpkg f hf).1
  refine .buildAt (.interface embedded direct) hid (fun _ => rfl) ?_ hknown ?_ ?_
  · intro tt t ht
    obtain ⟨fault, hrun⟩ | ⟨ms, -, hrun⟩ := newInterface_cases embedded direct tt
    · rw [hrun]
    · rw [hrun]
      exact shape_intern_of_knows _ ht
  · intro pkg horderly hpkg t ht
    show (newInterface embedded direct pkg.types).2.Knows t
    obtain ⟨fault, hrun⟩ | ⟨ms, hmerge, hrun⟩ := newInterface_cases embedded direct pkg.types
    · rw [hrun] at ht
      cases ht
    · rw [hrun] at ht ⊢
      exact ((horderly.regular.toSound.intern (s := .interface ms) rfl
        (horderly.regular.toSound.knows_merged (hknown pkg hpkg) hmerge)).2 t ht).1
  · intro pkg horderly hpkg fault hfault
    cases hmerge : pkg.types.mergeMethods embedded direct with
    | error fault' =>
        rw [newInterface_run, hmerge] at hfault
        cases hfault
        exact mergeMethods_refused horderly.regular.methodical (fun f hf => (hdirect pkg hpkg f hf).2) hmerge
    | ok ms =>
        obtain ⟨t, tt, hgranted⟩ := granted_intern (s := .interface ms) nofun pkg.types
        rw [newInterface_ok hmerge, hgranted] at hfault
        cases hfault

theorem interfaceType?_does (hid : file.tree.Under root id) :
    Does file self root P (m.interfaceType? id) KnownIfSome := by
  refine .any (.tree (.bind (members?_does hm _ fun x hx => ?_) lasting_true fun o => ?_))
  · exact hid.tail (List.mem_filter.1 hx).1
  cases o with
  | none => exact .pure fun pkg _ _ => knownIfSome_none pkg
  | some members =>
      refine (newInterface_does hid ?_ ?_).map fun _ _ _ h => knownIfSome_some h
      · rintro pkg ⟨-, h⟩ t ht
        obtain ⟨x, hx, heq⟩ := List.mem_filterMap.1 ht
        cases x with
        | method f => cases heq
        | embedded u =>
            cases heq
            exact h members rfl _ hx
      · rintro pkg ⟨-, h⟩ f hf
        obtain ⟨x, hx, heq⟩ := List.mem_filterMap.1 hf
        cases x with
        | method g =>
            cases heq
            exact h members rfl _ hx
        | embedded u => cases heq

/-! ### All type expressions -/

theorem pointerType?_does (hid : file.tree.Under root id) :
    Does file self root P (m.pointerType? id) KnownIfSome := by
  refine .any ((component_does hm 0 hid).bind lasting_true fun o => ?_)
  cases o with
  | none => exact .pure fun pkg _ _ => knownIfSome_none pkg
  | some elem =>
      refine build_does (.pointer elem) (fun _ => rfl) rfl nofun (fun _ h => h) ?_
      rintro pkg ⟨-, h⟩
      simpa [Operation.handles] using h elem rfl

theorem chanType?_does (dir : ChanDir) (hid : file.tree.Under root id) :
    Does file self root P (m.chanType? id dir) KnownIfSome := by
  refine .any ((component_does hm 0 hid).bind lasting_true fun o => ?_)
  cases o with
  | none => exact .pure fun pkg _ _ => knownIfSome_none pkg
  | some elem =>
      refine build_does (.chan elem dir) (fun _ => rfl) rfl nofun (fun _ h => h) ?_
      rintro pkg ⟨-, h⟩
      simpa [Operation.handles] using h elem rfl

theorem mapType?_does (hid : file.tree.Under root id) : Does file self root P (m.mapType? id) KnownIfSome := by
  refine .any ((component_does hm 0 hid).bind lasting_true fun key? => ?_)
  refine (component_does hm 1 hid).bind (lasting_true.and (lasting_knownIfSome key?)) fun elem? => ?_
  cases key? with
  | none => exact .pure fun pkg _ _ => knownIfSome_none pkg
  | some key =>
      cases elem? with
      | none => exact .pure fun pkg _ _ => knownIfSome_none pkg
      | some elem =>
          refine build_does (.map key elem) (fun _ => rfl) rfl nofun (fun _ h => h) ?_
          rintro pkg ⟨⟨-, hkey⟩, helem⟩
          simpa [Operation.handles] using ⟨hkey key rfl, helem elem rfl⟩

omit hm in
/-- What is missing is invalid, and the invalid type is known. -/
theorem getD_does {a : ResolveM (Option TypeId)} (h : Does file self root P a KnownIfSome)
    (hop : file.tree.op id ≠ .kw .func) :
    Does file self root P ((fun o : Option TypeId => o.getD TypeTable.invalid) <$> a) (Denoted file id) := by
  refine h.map fun o pkg horderly ho => ⟨?_, fun h => absurd h hop⟩
  cases o with
  | none => exact horderly.regular.knows_invalid
  | some t => exact ho t rfl

theorem typeExpr_does (hid : file.tree.Under root id) :
    Does file self root P (m.typeExpr id) (Denoted file id) := by
  have hinvalid (pkg : Package) (horderly : pkg.Orderly file) : Denoted file id TypeTable.invalid pkg :=
    ⟨horderly.regular.knows_invalid, fun _ => .inl horderly.regular.isInvalid_invalid⟩
  refine .tree (.ite (fun _ => .pure fun pkg horderly _ => hinvalid pkg horderly) fun _ => ?_)
  split
  · next hop => exact (typeName_does hm hid).mono fun _ _ _ ht => ⟨ht, fun h => absurd (hop.symm.trans h) nofun⟩
  · next hop =>
      refine .part hid fun c _ hc => (hm.type hc).mono fun t pkg _ ht => ⟨ht.1, fun h => ?_⟩
      exact absurd (hop.symm.trans h) nofun
  · next hop => exact getD_does (pointerType?_does hm hid) (by rw [hop]; exact nofun)
  · next hop => exact getD_does (arrayType?_does hm hid) (by rw [hop]; exact nofun)
  · next hop => exact getD_does (mapType?_does hm hid) (by rw [hop]; exact nofun)
  · next hop => exact getD_does (chanType?_does hm .both hid) (by rw [hop]; exact nofun)
  · next hop => exact getD_does (chanType?_does hm .send hid) (by rw [hop]; exact nofun)
  · next hop => exact getD_does (chanType?_does hm .recv hid) (by rw [hop]; exact nofun)
  · refine (signature?_does hm hid).map fun o pkg horderly ho => ?_
    cases o with
    | none => exact hinvalid pkg horderly
    | some t => exact ⟨(ho t rfl).1, fun _ => .inr (ho t rfl).2⟩
  · next hop => exact getD_does (interfaceType?_does hm hid) (by rw [hop]; exact nofun)
  · exact .fail hid _
  · exact .fail hid _
  · exact .fail hid _
  · exact .fail hid _

/-! ### Values -/

omit hm in
theorem isBasic_of_literalKind? {op : Token} {kind : Kind} (h : literalKind? op = some kind) : kind.isBasic = true := by
  unfold literalKind? at h
  split at h
  all_goals cases h
  all_goals rfl

theorem constantName_does (hid : file.tree.Under root id) :
    Does file self root P (m.constantName id) fun x pkg => pkg.types.Knows x.2 := by
  refine .any ((object_does hm hid).bind lasting_true fun obj => .check hid fun _ => ?_)
  split
  · next htyp => exact .pure fun pkg _ h => h.2 _ htyp
  · exact .fail hid _

theorem constantExpr_does (hid : file.tree.Under root id) :
    Does file self root P (m.constantExpr id) fun x pkg => pkg.types.Knows x.2 := by
  refine .tree (.check hid fun _ => ?_)
  dsimp only
  cases hkind : literalKind? (file.tree.op id) with
  | some kind =>
      exact .pure fun pkg horderly _ => knows_basic horderly.regular.toSound (isBasic_of_literalKind? hkind)
  | none =>
      dsimp only
      split
      · exact constantName_does hm hid
      · exact .part hid fun c _ hc => hm.constant hc
      · exact .fail hid _
      · exact .fail hid _
      · exact .fail hid _
      · exact .fail hid _

theorem valueName_does (hid : file.tree.Under root id) : Does file self root P (m.valueName id) KnownIfSome := by
  refine .any ((object_does hm hid).bind lasting_true fun obj => ?_)
  cases obj.role with
  | constant | «variable» | function => exact .pure fun pkg _ h => h.2
  | builtin | type | package => exact .fail hid _

theorem valueExpr_does (hid : file.tree.Under root id) : Does file self root P (m.valueExpr id) KnownIfSome := by
  refine .tree ?_
  dsimp only
  cases hkind : literalKind? (file.tree.op id) with
  | some kind =>
      refine .pure fun pkg horderly _ => knownIfSome_some ?_
      exact knows_basic horderly.regular.toSound (isBasic_of_literalKind? hkind)
  | none =>
      dsimp only
      split
      · exact valueName_does hm hid
      · exact .part hid fun c _ hc => hm.value hc
      · exact .pure fun pkg _ _ => knownIfSome_none pkg

omit hm in
theorem isBasic_of_defaultKind? {k kind : Kind} (h : defaultKind? k = some kind) : kind.isBasic = true := by
  unfold defaultKind? at h
  split at h
  all_goals cases h
  all_goals rfl

omit hm in
theorem defaultType_does {t : TypeId} (hid : file.tree.Under root id) (ht : ∀ pkg, P pkg → pkg.types.Knows t) :
    Does file self root P (ResolveM.defaultType id t) fun u pkg => pkg.types.Knows u := by
  refine .types fun tt => .check hid fun _ => .pure fun pkg horderly hpkg => ?_
  cases hkind : defaultKind? (tt.kind t) with
  | none => exact ht pkg hpkg.1
  | some kind => exact knows_basic horderly.regular.toSound (isBasic_of_defaultKind? hkind)

/-! ### Declarations -/

section Declarations

variable {entry : Entry} (hentry : entry.Fits file) (hrole : entry.role ≠ .type)
include hrole

omit hm in
/-- The declaration that is worked on gives a type to one of its names. -/
theorem update_does {name : NodeId} {f : Object → Object} (hname : ({ entry with name } : Entry).Fits file)
    (hkeeps : ∀ obj, (f obj).role = obj.role ∧ (f obj).decl = obj.decl)
    (hf : ∀ pkg, P pkg → ∀ obj t, (f obj).typ = some t → pkg.types.Knows t) :
    Does file (some entry) root P (ResolveM.update name f) fun _ _ => True :=
  fun pkg _ hpkg => ⟨⟨[], .give hrole hname hkeeps (hf pkg hpkg)⟩, trivial⟩

omit hm hrole in
theorem mismatches_does (value declared : TypeId) :
    Does file self root P (ResolveM.mismatches value declared) fun _ _ => True :=
  .types fun _ => .pure fun _ _ _ => trivial

theorem constantDecl_does {declared : Option TypeId} {name value : NodeId} (hvalue : file.tree.Under root value)
    (hname : ({ entry with name } : Entry).Fits file) :
    Does file (some entry) root (KnownIfSome declared) (m.constantDecl declared name value) fun _ _ => True := by
  refine (hm.constant hvalue).bind (lasting_knownIfSome declared) fun x => ?_
  cases declared with
  | none =>
      refine update_does hrole hname (fun _ => ⟨rfl, rfl⟩) ?_
      rintro pkg ⟨-, hx⟩ obj t ⟨⟩
      exact hx
  | some d =>
      refine .types fun tt => Does.pre (P := KnownIfSome (some d)) ?_ fun _ h => h.1.1
      refine (mismatches_does x.2 d).bind (lasting_knownIfSome (some d)) fun _ => .check hvalue fun _ => ?_
      refine update_does hrole hname (fun _ => ⟨rfl, rfl⟩) ?_
      rintro pkg ⟨hd, -⟩ obj t ⟨⟩
      exact hd d rfl

omit hm in
theorem giveVariable_does (declared : Option TypeId) {name : NodeId} (inferred : Option (NodeId × TypeId))
    (hinferred : ∀ x, inferred = some x → file.tree.Under root x.1) (hname : ({ entry with name } : Entry).Fits file) :
    Does file (some entry) root
      (fun pkg => KnownIfSome declared pkg ∧ KnownIfSome (inferred.map Prod.snd) pkg)
      (giveVariable declared name inferred) fun _ _ => True := by
  have hlasting : Lasting file fun pkg => KnownIfSome declared pkg ∧ KnownIfSome (inferred.map Prod.snd) pkg :=
    (lasting_knownIfSome declared).and (lasting_knownIfSome _)
  have hdeclared : Does file (some entry) root
      (fun pkg => KnownIfSome declared pkg ∧ KnownIfSome (inferred.map Prod.snd) pkg)
      (ResolveM.update name ({ · with typ := declared })) fun _ _ => True :=
    update_does hrole hname (fun _ => ⟨rfl, rfl⟩) fun pkg h obj t ht => h.1 t ht
  unfold giveVariable
  cases declared with
  | none =>
      cases inferred with
      | none => exact hdeclared
      | some x =>
          refine .bind (Q := KnownIfSome) ?_ hlasting fun typ => ?_
          · refine (defaultType_does (hinferred x rfl) ?_).map fun _ _ _ h => knownIfSome_some h
            exact fun pkg h => h.2 x.2 rfl
          · exact update_does hrole hname (fun _ => ⟨rfl, rfl⟩) fun pkg h obj t ht => h.2 t ht
  | some d =>
      cases inferred with
      | none => exact hdeclared
      | some x =>
          refine (mismatches_does x.2 d).bind hlasting fun _ => .ite (fun _ => ?_) fun _ => ?_
          · exact .types fun tt => .tree fun pkg _ _ => ⟨⟨[], .idle⟩, x.1, _, hinferred x rfl, rfl⟩
          · exact hdeclared.pre fun _ h => h.1

theorem variableDecl_does {declared : Option TypeId} {name : NodeId} {value : Option NodeId}
    (hvalue : ∀ v, value = some v → file.tree.Under root v) (hname : ({ entry with name } : Entry).Fits file) :
    Does file (some entry) root (KnownIfSome declared) (m.variableDecl declared name value) fun _ _ => True := by
  cases value with
  | none => exact (giveVariable_does hrole declared none (by simp) hname).pre fun pkg h => ⟨h, knownIfSome_none pkg⟩
  | some v =>
      have hv := hvalue v rfl
      refine (hm.value hv).bind (lasting_knownIfSome declared) fun o => ?_
      refine (giveVariable_does hrole declared (o.map fun t => (v, t)) ?_ hname).pre fun pkg h => ⟨h.1, ?_⟩
      · rintro x hx
        obtain ⟨t, -, rfl⟩ := Option.map_eq_some_iff.1 hx
        exact hv
      · rw [Option.map_map]
        exact Option.map_id'.symm ▸ h.2

theorem constantDecls_does {declared : Option TypeId} {names values : List NodeId}
    (hnames : ∀ name ∈ names, ({ entry with name } : Entry).Fits file)
    (hvalues : ∀ v ∈ values, file.tree.Under entry.spec v) :
    Does file (some entry) entry.spec (KnownIfSome declared) (m.constantDecls entry.spec declared names values)
      fun _ _ => True := by
  unfold constantDecls
  refine .check .refl fun _ => .check .refl fun _ => .forM _ (lasting_knownIfSome declared) fun x hx => ?_
  have hx := List.of_mem_zip hx
  exact constantDecl_does hm hrole (hvalues x.2 hx.2) (hnames x.1 hx.1)

theorem variableDecls_does {declared : Option TypeId} {names values : List NodeId}
    (hnames : ∀ name ∈ names, ({ entry with name } : Entry).Fits file)
    (hvalues : ∀ v ∈ values, file.tree.Under entry.spec v) :
    Does file (some entry) entry.spec (KnownIfSome declared) (m.variableDecls entry.spec declared names values)
      fun _ _ => True := by
  unfold variableDecls
  refine .check .refl fun _ => .forM _ (lasting_knownIfSome declared) fun x hx => ?_
  exact variableDecl_does hm hrole (fun v hv => hvalues v (List.mem_of_getElem? hv))
    (hnames x.1 (List.fst_mem_of_mem_zipIdx hx))

include hentry

theorem valueSpec_does (hvalue : entry.role = .constant ∨ entry.role = .variable) :
    Does file (some entry) entry.spec P (m.valueSpec entry) fun _ _ => True := by
  have hnames : ∀ name ∈ (file.tree.part? entry.spec 0).elim [] file.tree.present,
      ({ entry with name } : Entry).Fits file := fun name hname => hentry.named hvalue hname
  have hvalues : ∀ v ∈ (file.tree.part? entry.spec 2).elim [] file.tree.present, file.tree.Under entry.spec v := by
    intro v hv
    cases hpart : file.tree.part? entry.spec 2 with
    | none =>
        rw [hpart] at hv
        cases hv
    | some list =>
        rw [hpart] at hv
        exact (Relation.ReflTransGen.single (Tree.mem_present_of_part? hpart)).tail hv
  have hdecls (declared : Option TypeId) :=
    Does.ite (P := KnownIfSome declared) (c := entry.role = .constant)
      (fun _ => constantDecls_does hm hrole hnames hvalues) fun _ => variableDecls_does hm hrole hnames hvalues
  refine .any (.tree ?_)
  cases htype : file.tree.part? entry.spec 1 with
  | none => exact (hdecls none).pre fun pkg _ => knownIfSome_none pkg
  | some t =>
      have ht : file.tree.Under entry.spec t := .single (Tree.mem_present_of_part? htype)
      refine ((hm.type ht).map fun _ _ _ h => knownIfSome_some h.1).bind lasting_true fun declared => ?_
      exact (hdecls declared).pre fun _ => And.right

theorem function_does (hfunction : entry.role = .function) :
    Does file (some entry) entry.spec P (m.function entry) fun _ _ => True := by
  have hname : file.tree.Under entry.spec entry.name := by
    cases hentry with
    | function _ _ _ hname => exact .single (Tree.mem_present_of_part? hname)
    | value _ hop => rcases hop with ⟨-, rfl⟩ | ⟨-, rfl⟩ <;> cases hfunction
    | type => cases hfunction
    | import_ => cases hfunction
  refine .any (.part .refl fun c _ hc => (hm.type hc).bind lasting_true fun signature => .get fun q _ => ?_)
  cases q.objects.get? entry.name with
  | none => exact .pure fun _ _ _ => trivial
  | some obj =>
      refine .check hname fun _ => update_does hrole hentry (fun _ => ⟨rfl, rfl⟩) ?_
      rintro pkg ⟨⟨-, h⟩, -⟩ obj t ⟨⟩
      exact h.1

theorem byRole_does : Does file (some entry) entry.spec P (m.byRole entry) fun _ _ => True := by
  unfold byRole
  split
  · next h => exact absurd h hrole
  · next h => exact valueSpec_does hm hentry hrole (.inl h)
  · next h => exact valueSpec_does hm hentry hrole (.inr h)
  · next h => exact function_does hm hentry hrole h
  · exact .pure fun _ _ _ => trivial
  · exact .pure fun _ _ _ => trivial

end Declarations

/-! ### Type declarations -/

section TypeDeclarations

variable {entry : Entry} {pkg : Package}

omit hm in
/-- What a type declaration does with its meaning. -/
def takeMeaning (entry : Entry) (meaning : TypeId) : ResolveM Unit := do
  match (← get).objects.get? entry.name with
  | none => return
  | some obj =>
      match obj.typ with
      | none => ResolveM.update entry.name ({ · with typ := some meaning })
      | some t =>
          if ((← ResolveM.types).underlying? meaning).isNone then
            ResolveM.fail entry.name (.recursiveType obj.name)
          ResolveM.build (TypeTable.setUnderlying t meaning)

omit hm in
/-- A type that is awaited gets its meaning, unless that is not known to stand for anything. -/
theorem takeMeaning_ends {meaning : TypeId} (horderly : pkg.Orderly file) (hawaits : pkg.Awaits file entry)
    (hknown : pkg.types.Knows meaning) :
    (∃ pkg', takeMeaning entry meaning file pkg = (.ok (), pkg') ∧ Means entry meaning pkg pkg') ∨
      ∃ d name, takeMeaning entry meaning file pkg = (.error (.declaration d), pkg) ∧ d.LiesIn file entry.spec ∧
        d.cause = .recursiveType name ∧ pkg.types.underlying? meaning = none := by
  obtain ⟨obj, hobj, hunbound⟩ := horderly.awaited entry hawaits
  cases ht : obj.typ with
  | none =>
      refine .inl ⟨_, ?_, .taken hobj ht hknown⟩
      rw [takeMeaning, ResolveM.run_bind (ResolveM.get_run file pkg), hobj]
      dsimp only
      rw [ht]
      rfl
  | some t =>
      obtain ⟨pkgPath, name, ms, hs⟩ := hunbound t ht
      cases hu : pkg.types.underlying? meaning with
      | none =>
          refine .inr ⟨_, _, ?_, ⟨entry.name, .recursiveType obj.name, hawaits.fits.under hawaits.role_eq, rfl⟩, rfl, rfl⟩
          rw [takeMeaning, ResolveM.run_bind (ResolveM.get_run file pkg), hobj]
          dsimp only
          rw [ht]
          dsimp only
          rw [ResolveM.run_bind (ResolveM.types_run file pkg), hu]
          rfl
      | some u =>
          obtain ⟨tt, hrun, -⟩ := setUnderlying_ok hs hu
          refine .inl ⟨_, ?_, .bound hobj ht hknown hrun⟩
          rw [takeMeaning, ResolveM.run_bind (ResolveM.get_run file pkg), hobj]
          dsimp only
          rw [ht]
          dsimp only
          rw [ResolveM.run_bind (ResolveM.types_run file pkg), hu]
          show ResolveM.build (TypeTable.setUnderlying t meaning) file pkg = _
          rw [ResolveM.build, ResolveM.bind_run, Does.onTypes_eq, hrun]
          rfl

omit hm in
/-- A type whose declaration is at fault becomes invalid. -/
theorem poison_ends (horderly : pkg.Orderly file) (hawaits : pkg.Awaits file entry) :
    ∃ pkg', ResolveM.poison entry.name file (pkg.setProgress entry.spec .done) =
      (.ok (), pkg'.setProgress entry.spec .done) ∧ Means entry TypeTable.invalid pkg pkg' := by
  obtain ⟨obj, hobj, hunbound⟩ := horderly.awaited entry hawaits
  have hknown := horderly.regular.knows_invalid
  have hfound : (pkg.setProgress entry.spec .done).objects.get? entry.name = some obj := hobj
  cases ht : obj.typ with
  | none =>
      refine ⟨_, ?_, .taken hobj ht hknown⟩
      rw [ResolveM.poison, ResolveM.run_bind (ResolveM.get_run file _), hfound]
      dsimp only
      rw [ht]
      rfl
  | some t =>
      obtain ⟨pkgPath, name, ms, hs⟩ := hunbound t ht
      have hu : pkg.types.underlying? TypeTable.invalid = some TypeTable.invalid := by
        rw [TypeTable.underlying?, horderly.regular.shape_invalid]
      obtain ⟨tt, hrun, -⟩ := setUnderlying_ok hs hu
      refine ⟨_, ?_, .bound hobj ht hknown hrun⟩
      rw [ResolveM.poison, ResolveM.run_bind (ResolveM.get_run file _), hfound]
      dsimp only
      rw [ht]
      dsimp only
      rw [ResolveM.run_bind (ResolveM.types_run file _), if_pos]
      · rw [ResolveM.build, ResolveM.bind_run, Does.onTypes_eq]
        have hrun : setUnderlying t TypeTable.invalid (pkg.setProgress entry.spec .done).types = (.ok (), tt) := hrun
        rw [hrun]
        rfl
      · show (pkg.types.pkgPath? t).isSome ∧ (pkg.types.underlying? t).isNone
        rw [pkgPath?, TypeTable.underlying?, hs]
        exact ⟨rfl, rfl⟩

omit hm in
/-- A pending declaration is begun, resolved by its role and ended, and its fault is recorded. -/
theorem resolve_eq (m : Meanings) (hpending : pkg.progress? entry.spec = some .pending) :
    m.resolve entry file pkg =
      match m.byRole entry file (pkg.setProgress entry.spec .resolving) with
      | (.ok (), pkg₁) => (.ok (), pkg₁.setProgress entry.spec .done)
      | (.error (.declaration d), pkg₁) =>
          (do
            if entry.role = .type then ResolveM.poison entry.name
            ResolveM.record d : ResolveM Unit) file (pkg₁.setProgress entry.spec .done)
      | (.error failure, pkg₁) => (.error failure, pkg₁.setProgress entry.spec .done) := by
  rw [Meanings.resolve, ResolveM.run_bind (ResolveM.get_run file pkg), if_neg (by simpa using hpending)]
  refine (ResolveM.run_bind (modify_run _ file pkg)).trans ?_
  have hattempt : ResolveM.attempt (m.byRole entry) file (pkg.setProgress entry.spec .resolving) =
      (.ok (m.byRole entry file (pkg.setProgress entry.spec .resolving)).1,
        (m.byRole entry file (pkg.setProgress entry.spec .resolving)).2) := rfl
  refine (ResolveM.run_bind hattempt).trans ?_
  rcases m.byRole entry file (pkg.setProgress entry.spec .resolving) with ⟨(d | fault) | _, pkg₁⟩
  · rfl
  · rfl
  · rfl

omit hm in
theorem record_eq (d : Diagnostic SemanticFault) (pkg : Package) :
    ResolveM.record d file pkg = (.ok (), pkg.recorded (some d)) := by
  show (Except.ok (), ({ pkg with faults := pkg.faults.push d } : Package)) = _
  rw [Package.recorded, Option.toList_some]
  rfl

omit hm in
/-- A declaration that has been worked on is no longer pending. -/
theorem declared_ends {es : List Event} {pkg₁ pkg₂ : Package} {fault : Option (Diagnostic SemanticFault)}
    (hentry : entry.Fits file) (hpending : pkg.progress? entry.spec = some .pending)
    (hwork : Work file (some entry) (pkg.setProgress entry.spec .resolving) es pkg₁)
    (hsettles : Settles file entry pkg₁ fault pkg₂) :
    (∃ es, Work file self pkg es pkg₂) ∧ pkg₂.progress? entry.spec ≠ some .pending := by
  refine ⟨⟨_, .declare hentry hpending hwork hsettles⟩, ?_⟩
  rw [hsettles.progress?_eq (hwork.resolving hpending)]
  exact nofun

/-- The work on a declaration that is none of types. -/
theorem resolve_value {self : Option Entry} (hentry : entry.Fits file) (hrole : entry.role ≠ .type)
    (horderly : pkg.Orderly file) (hpending : pkg.progress? entry.spec = some .pending) :
    Ends file self (fun _ => False) pkg (fun _ pkg => pkg.progress? entry.spec ≠ some .pending) (m.resolve entry file pkg) := by
  have hends := byRole_does hm (P := fun _ => True) hentry hrole _ (horderly.begin hpending) trivial
  rw [resolve_eq m hpending]
  match hrun : m.byRole entry file (pkg.setProgress entry.spec .resolving) with
  | (.ok (), pkg₁) =>
      rw [hrun] at hends
      obtain ⟨⟨es, hwork⟩, -⟩ := hends
      exact declared_ends hentry hpending hwork (.value none hrole nofun)
  | (.error (.declaration d), pkg₁) =>
      rw [hrun] at hends
      obtain ⟨⟨es, hwork⟩, hd⟩ := hends
      dsimp only
      rw [if_neg hrole]
      show Ends file self _ pkg _ (ResolveM.record d file (pkg₁.setProgress entry.spec .done))
      rw [record_eq]
      refine declared_ends hentry hpending hwork (.value (some d) hrole ?_)
      rintro d' ⟨⟩
      exact hd
  | (.error (.construction fault), pkg₁) =>
      rw [hrun] at hends
      exact hends

/-- The work on a type declaration. -/
theorem resolve_type {self : Option Entry} (hentry : entry.Fits file) (hrole : entry.role = .type)
    (horderly : pkg.Orderly file) (hpending : pkg.progress? entry.spec = some .pending) :
    Ends file self (fun _ => False) pkg (fun _ pkg => pkg.progress? entry.spec ≠ some .pending) (m.resolve entry file pkg) := by
  have hbegun := horderly.begin hpending
  have hmeaning : Does file (some entry) entry.spec (fun _ => True) (ResolveM.part entry.spec 1 >>= m.type)
      fun t pkg => pkg.types.Knows t :=
    .part .refl fun c _ hc => (hm.type hc).mono fun _ _ _ h => h.1
  have hends := hmeaning _ hbegun trivial
  have hbyRole : m.byRole entry = (ResolveM.part entry.spec 1 >>= m.type) >>= takeMeaning entry := by
    rw [byRole, hrole, bind_assoc]
    rfl
  have hfault {es : List Event} {pkg₁ : Package} {d : Diagnostic SemanticFault}
      (hwork : Work file (some entry) (pkg.setProgress entry.spec .resolving) es pkg₁) (hd : d.LiesIn file entry.spec) :
      Ends file self (fun _ => False) pkg (fun _ pkg => pkg.progress? entry.spec ≠ some .pending)
        ((do
          if entry.role = .type then ResolveM.poison entry.name
          ResolveM.record d : ResolveM Unit) file (pkg₁.setProgress entry.spec .done)) := by
    obtain ⟨pkg₂, hpoison, hmeans⟩ := poison_ends (hwork.orderly hbegun) ⟨hentry, hrole, .inr (hwork.resolving hpending)⟩
    rw [if_pos hrole, ResolveM.run_bind hpoison]
    dsimp only
    rw [record_eq]
    exact declared_ends hentry hpending hwork (.poisoned hrole hmeans hd)
  rw [resolve_eq m hpending, hbyRole, ResolveM.bind_run]
  rcases hrun : (ResolveM.part entry.spec 1 >>= m.type) file (pkg.setProgress entry.spec .resolving) with
    ⟨(d | fault) | t, pkg₁⟩
  · rw [hrun] at hends
    obtain ⟨⟨es, hwork⟩, hd⟩ := hends
    exact hfault hwork hd
  · rw [hrun] at hends
    exact hends
  · rw [hrun] at hends
    obtain ⟨⟨es, hwork⟩, ht⟩ := hends
    dsimp only
    obtain ⟨pkg₂, htake, hmeans⟩ | ⟨d, -, htake, hd, -⟩ :=
      takeMeaning_ends (hwork.orderly hbegun) ⟨hentry, hrole, .inr (hwork.resolving hpending)⟩ ht
    · rw [htake]
      exact declared_ends hentry hpending hwork (.type hrole hmeans)
    · rw [htake]
      exact hfault hwork hd

/-- Resolving a declaration ends without a fault, since that is recorded. -/
theorem resolve_ends (hentry : entry.Fits file) (horderly : pkg.Orderly file) :
    Ends file self (fun _ => False) pkg (fun _ pkg => pkg.progress? entry.spec ≠ some .pending) (m.resolve entry file pkg) := by
  by_cases hpending : pkg.progress? entry.spec = some .pending
  · by_cases hrole : entry.role = .type
    · exact resolve_type hm hentry hrole horderly hpending
    · exact resolve_value hm hentry hrole horderly hpending
  · rw [Meanings.resolve, ResolveM.run_bind (ResolveM.get_run file pkg), if_pos hpending]
    exact ⟨⟨[], .idle⟩, hpending⟩

theorem resolve_does (hentry : entry.Fits file) : Does file self root P (m.resolve entry) fun _ _ => True :=
  fun _ horderly _ => (resolve_ends hm hentry horderly).mono horderly (fun _ => False.elim) fun _ _ _ _ => trivial

end TypeDeclarations

/-! ### Methods -/

omit hm in
theorem receiverBase_does {recv : NodeId} (hrecv : file.tree.Under root recv) :
    Does file self root P (receiverBase recv) fun base _ => file.tree.Under root base := by
  have hname {base : NodeId} (hbase : file.tree.Under root base) :
      Does file self root P
        (do
          if file.tree.op base ≠ .lit .ident then
            ResolveM.fail base (.invalidReceiver (file.tree.render base))
          return base)
        fun base _ => file.tree.Under root base :=
    .check hbase fun _ => .pure fun _ _ _ => hbase
  refine .tree ?_
  split
  · next field hfields =>
      have hfield : file.tree.Under root field := hrecv.tail (by rw [hfields]; exact List.mem_singleton.2 rfl)
      refine .part hfield fun typ _ htyp => .ite (fun _ => .part htyp fun base _ hbase => ?_) fun _ => hname htyp
      exact hname hbase
  · exact .fail hrecv _
  · exact .fail hrecv _

omit hm in
theorem receiverType_does {base : NodeId} (name : String) (hbase : file.tree.Under root base) :
    Does file self root P (receiverType base name) fun t pkg => IsDeclared t pkg := by
  refine .get fun q _ => ?_
  cases q.declared? name with
  | none => exact .ite (fun _ => .fail hbase _) fun _ => .fail hbase _
  | some entry =>
      dsimp only
      split
      · next t ht =>
          refine .pure ?_
          rintro pkg - ⟨-, rfl⟩
          have hpath : (pkg.types.pkgPath? t).isSome := (Option.filter_eq_some_iff.1 ht).2
          rw [pkgPath?] at hpath
          split at hpath
          · next hs => exact ⟨_, _, _, _, hs⟩
          · cases hpath
      · exact .fail hbase _

section Methods

omit hm in
theorem op_of_isMethod {tree : Tree} {decl : NodeId} (h : Package.isMethod tree decl = true) :
    tree.op decl = .kw .func := by
  rw [Package.isMethod, Bool.and_eq_true, Bool.and_eq_true, decide_eq_true_eq] at h
  exact h.1.2

variable {decl name : NodeId} {t signature : TypeId}

omit hm in
/-- A function is added to its receiver, or there is a method of its name already. -/
theorem attach_does {f : Method} {obj : Object} (hdecl : decl ∈ file.decls)
    (hmethod : Package.isMethod file.tree decl = true) (hname : file.tree.part? decl 1 = some name) (hobj : obj.typ = some f.typ) :
    Does file self decl
      (fun pkg => (∀ entry, ¬ pkg.Awaits file entry) ∧ IsDeclared t pkg ∧
        pkg.types.Knows f.typ ∧ (pkg.types.shape f.typ).kind = .func)
      (do
        ResolveM.buildAt name (TypeTable.addMethod t f)
        modify fun pkg => { pkg with objects := pkg.objects.insert name obj }) fun _ _ => True := by
  rintro pkg horderly ⟨hended, ⟨pkgPath, typeName, bound, ms, hs⟩, hf, hfunc⟩
  have ht : pkg.types.Knows t := knows_of_shape_ne (by rw [hs]; exact nofun)
  have hreaches : Reaches pkg.types (TypeTable.addMethod t f pkg.types).2 := by
    refine Reaches.after .refl (.method t f) ?_ rfl
    simpa [Operation.handles] using ⟨ht, hf⟩
  rw [ResolveM.bind_run, ResolveM.buildAt, ResolveM.bind_run, Does.onTypes_eq]
  dsimp only
  cases houtcome : (TypeTable.addMethod t f pkg.types).1 with
  | ok x =>
      refine ⟨⟨[], .method hdecl hmethod hname hended hreaches ?_⟩, trivial⟩
      intro u hu
      cases hobj.symm.trans hu
      exact (hreaches.grows horderly.regular.toSound).knows hf
  | error fault =>
      have hlocal := addMethod_refused hs hfunc houtcome
      obtain ⟨outcome, hrun⟩ | ⟨_, _, _, _, -, hrun⟩ := addMethod_cases t f pkg.types
      · rw [hrun]
        cases fault with
        | arrayTooLarge | duplicateMethod | notAnInterface | incompleteEmbedded =>
            exact ⟨⟨[], .idle⟩, name, .construction _, .single (Tree.mem_present_of_part? hname), rfl⟩
        | _ => cases hlocal
      · rw [hrun] at houtcome
        cases houtcome

omit hm in
theorem addMethod_does (hdecl : decl ∈ file.decls) (hmethod : Package.isMethod file.tree decl = true)
    (hname : file.tree.part? decl 1 = some name) (receiver : String) :
    Does file self decl
      (fun pkg => (∀ entry, ¬ pkg.Awaits file entry) ∧ IsDeclared t pkg ∧
        pkg.types.Knows signature ∧ (pkg.types.shape signature).kind = .func)
      (addMethod decl name receiver t signature) fun _ _ => True := by
  have hunder : file.tree.Under decl name := .single (Tree.mem_present_of_part? hname)
  refine .tree (.get fun q _ => .check hunder fun _ => ?_)
  rintro pkg horderly ⟨⟨hended, hdeclared, hsignature, hfunc⟩, -⟩
  have hnoted : Work file self pkg [] { pkg with methods := (receiver, file.tree.literal name) :: pkg.methods } :=
    .note _
  refine Ends.after hnoted ?_
  dsimp only
  rw [ResolveM.run_bind (modify_run _ file pkg), ResolveM.run_bind (ResolveM.get_run file _)]
  refine attach_does (f := { name := file.tree.literal name, pkgPath := _, typ := signature }) hdecl hmethod hname rfl _
    (hnoted.orderly horderly) ⟨?_, hdeclared, hsignature, hfunc⟩
  exact lasting_ended horderly hnoted hended

/-- A method declaration. -/
theorem method_does (hdecl : decl ∈ file.decls) (hforest : file.tree.Forest)
    (hmethod : Package.isMethod file.tree decl = true) :
    Does file self decl (fun pkg => ∀ entry, ¬ pkg.Awaits file entry) (m.method decl) fun _ _ => True := by
  refine .part .refl fun recv _ hrecv => .part .refl fun name hname hunder => ?_
  refine .part .refl fun sig hsig hunder' => .tree (.check hunder fun _ => ?_)
  refine (receiverBase_does hrecv).bind lasting_ended fun base => ?_
  refine Does.pre (P := fun pkg => (∀ entry, ¬ pkg.Awaits file entry) ∧ file.tree.Under decl base) ?_ fun _ h => h
  by_cases hbase : file.tree.Under decl base
  · refine (receiverType_does _ hbase).bind (lasting_ended.and (lasting_const _)) fun t => .types fun tt => ?_
    split
    · exact .pure fun _ _ _ => trivial
    · exact .fail hbase _
    · exact .fail hbase _
    · refine Does.pre (P := fun pkg => (∀ entry, ¬ pkg.Awaits file entry) ∧ IsDeclared t pkg) ?_
        fun _ h => ⟨h.1.1.1, h.1.2⟩
      refine (hm.type hunder').bind (lasting_ended.and (lasting_isDeclared t)) fun signature => .types fun tt => ?_
      refine .ite (fun hvalid => ?_) fun _ => .pure fun _ _ _ => trivial
      refine (addMethod_does hdecl hmethod hname _).pre ?_
      rintro pkg ⟨⟨⟨hended, hdeclared⟩, hknown, hfunc⟩, rfl⟩
      refine ⟨hended, hdeclared, hknown, (hfunc (hforest.signed (op_of_isMethod hmethod) hsig)).resolve_left fun hinvalid => ?_⟩
      rw [hinvalid] at hvalid
      cases hvalid
  · exact fun pkg _ h => absurd h.2 hbase

end Methods

end Meanings

/-- The meanings that resolution uses are lawful.  A question that would go round in a circle is harmless. -/
theorem lawful_meanings (file : ParsedFile) (bound : Nat) : (meanings bound).Lawful file := by
  induction bound using Nat.strongRecOn with
  | ind bound ih =>
      constructor
      · intro self root id P hid pkg horderly hpkg
        rw [meanings]
        dsimp only
        split
        · next hlt => exact Meanings.typeExpr_does (ih _ hlt) hid pkg horderly hpkg
        · exact ⟨⟨[], .idle⟩, horderly.regular.knows_invalid, fun _ => .inl horderly.regular.isInvalid_invalid⟩
      · intro self root id P hid pkg horderly hpkg
        rw [meanings]
        dsimp only
        split
        · next hlt => exact Meanings.constantExpr_does (ih _ hlt) hid pkg horderly hpkg
        · exact ⟨⟨[], .idle⟩, id, _, hid, rfl⟩
      · intro self root id P hid pkg horderly hpkg
        rw [meanings]
        dsimp only
        split
        · next hlt => exact Meanings.valueExpr_does (ih _ hlt) hid pkg horderly hpkg
        · exact ⟨⟨[], .idle⟩, knownIfSome_none pkg⟩
      · intro self root P entry hentry pkg horderly hpkg
        rw [meanings]
        dsimp only
        split
        · next hlt => exact Meanings.resolve_does (ih _ hlt) hentry pkg horderly hpkg
        · exact ⟨⟨[], .idle⟩, trivial⟩

end GoSource
