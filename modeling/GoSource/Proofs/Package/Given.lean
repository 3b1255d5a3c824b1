import GoSource.Proofs.Package.Honest
import GoSource.Proofs.Package.Layered

/-!
# Declarations give their names what they should

A declaration gives types and values to its names, which have nothing before.  It leaves the package sane, whatever it
refers to.

* **`Holding`**: what is known about a name of the declaration that is under way.
* One lemma for each kind of declaration, **`Meanings.byRole_yields`** for all of them.
* **`Meanings.resolve_yields`**: whole declarations.  **`honest_unfold`** closes the recursion.
-/

namespace GoSource

open TypeTable

variable {file : ParsedFile} {start : TypeTable} {own : List NodeId} {P : Package → Prop} {Q : Object → Prop}
  {entry : Entry} {name : NodeId} {pkg pkg' : Package}

/-! ### Names of a declaration -/

/-- An entity that has been given nothing. -/
def Object.IsBare (obj : Object) : Prop :=
  obj.typ = none ∧ obj.value = none

/-- The declaration is under way, and its name stands for an entity with `Q`, if for any. -/
def Holding (entry : Entry) (Q : Object → Prop) (name : NodeId) (pkg : Package) : Prop :=
  pkg.progress? entry.spec = some .resolving ∧ ∀ obj, pkg.objects.get? name = some obj → Q obj

theorem durable_holding (hname : ({ entry with name } : Entry).Fits file) (hown : name ∉ own) :
    Durable file own (Holding entry Q name) := by
  rintro pkg pkg' - honto ⟨hresolving, hobj⟩
  have hbegun : pkg.progress? entry.spec ≠ some .pending := by simp [hresolving]
  refine ⟨(honto.onward.kept _ hbegun).trans hresolving, fun obj hnow => hobj obj ?_⟩
  exact (honto.still _ hname hbegun hown).symm.trans hnow

/-- What a declaration may do to the entity of one of its names. -/
structure Fills (file : ParsedFile) (start : TypeTable) (entry : Entry) (name : NodeId) (f : Object → Object)
    (pkg : Package) : Prop where
  knows : ∀ obj t, (f obj).typ = some t → pkg.types.Knows t
  constant : entry.role = .constant → ∀ obj, (f obj).Valued pkg.types
  declared : entry.role = .variable → ∀ y, file.tree.part? entry.spec 1 = some y → ∀ obj t, (f obj).typ = some t →
    Answers file start y t pkg
  sense : ∀ obj t, (f obj).typ = some t → t ≠ TypeTable.invalid →
    ∃ S, Says file (pkg.setting start) (.name { entry with name }) S ∧ pkg.Stands file start t S
  value : ∀ obj v, obj.IsBare → (f obj).value = some v →
    ∃ x, Initializes file { entry with name } x ∧ States file (pkg.setting start) x v.literal

/-- The names in a declaration of constants or variables. -/
def ParsedFile.namesIn (file : ParsedFile) (spec : NodeId) : List NodeId :=
  (file.tree.part? spec 0).elim [] file.tree.present

/-- The values in a declaration of constants or variables. -/
def ParsedFile.valuesIn (file : ParsedFile) (spec : NodeId) : List NodeId :=
  (file.tree.part? spec 2).elim [] file.tree.present

theorem nodup_namesIn (hforest : file.tree.Forest) (spec : NodeId) : (file.namesIn spec).Nodup := by
  rw [ParsedFile.namesIn]
  cases file.tree.part? spec 0 with
  | none => exact List.nodup_nil
  | some names => exact hforest.nodup names

/-- The names get the values one by one. -/
theorem initializes_of_items {i : Nat} {x : NodeId} (hname : (file.namesIn entry.spec)[i]? = some name)
    (hvalue : (file.valuesIn entry.spec)[i]? = some x) : Initializes file { entry with name } x := by
  rw [ParsedFile.namesIn] at hname
  rw [ParsedFile.valuesIn] at hvalue
  cases hnames : file.tree.part? entry.spec 0 with
  | none => simp [hnames] at hname
  | some names =>
      cases hvalues : file.tree.part? entry.spec 2 with
      | none => simp [hvalues] at hvalue
      | some values =>
          rw [hnames] at hname
          rw [hvalues] at hvalue
          exact .intro hnames hvalues hname hvalue

/-- The type that constants or variables are declared with is what is signified there. -/
inductive DeclaredAs (file : ParsedFile) (start : TypeTable) (entry : Entry) : Option TypeId → Package → Prop
  | untyped {pkg : Package} (htype : file.tree.part? entry.spec 1 = none) : DeclaredAs file start entry none pkg
  | typed {pkg : Package} {y : NodeId} {d : TypeId} (htype : file.tree.part? entry.spec 1 = some y)
      (hd : Answers file start y d pkg) : DeclaredAs file start entry (some d) pkg

theorem durable_declaredAs (declared : Option TypeId) : Durable file own (DeclaredAs file start entry declared) := by
  intro pkg pkg' horderly honto h
  cases h with
  | untyped htype => exact .untyped htype
  | typed htype hd => exact .typed htype (durable_answers _ _ horderly honto hd)

/-- A name that is declared with a type has it. -/
theorem sense_of_declared {y : NodeId} {d : TypeId} (hrole : entry.role = .constant ∨ entry.role = .variable)
    (htype : file.tree.part? entry.spec 1 = some y) (hd : Answers file start y d pkg) (hvalid : d ≠ TypeTable.invalid) :
    ∃ S, Says file (pkg.setting start) (.name { entry with name }) S ∧ pkg.Stands file start d S := by
  obtain ⟨-, S, hS, hstands⟩ := hd.signifies hvalid
  have hsense : EntitySense file (Says file (pkg.setting start)) { entry with name } S := .typed hrole htype hS
  exact ⟨S, (Rule.name hsense).said, hstands⟩

/-- A variable has a type if one is declared. -/
def Object.IsTyped (file : ParsedFile) (entry : Entry) (obj : Object) : Prop :=
  (file.tree.part? entry.spec 1).isSome → obj.typ.isSome

/-- What variables are declared with may be given to them. -/
theorem DeclaredAs.fills {declared : Option TypeId} (h : DeclaredAs file start entry declared pkg)
    (hsane : pkg.Sane file start) (hrole : entry.role = .variable) :
    Fills file start entry name (fun obj => { obj with typ := declared }) pkg := by
  have hconstant : entry.role = .constant → False := by simp [hrole]
  have hvalue (obj : Object) (v : ConstValue) (hbare : obj.IsBare) (hv : obj.value = some v) :
      ∃ x, Initializes file { entry with name } x ∧ States file (pkg.setting start) x v.literal := by
    cases hbare.2.symm.trans hv
  cases h with
  | untyped hmissing =>
      refine ⟨?_, fun h => (hconstant h).elim, fun _ y hy => ?_, ?_, hvalue⟩
      · rintro obj t ⟨⟩
      · cases hmissing.symm.trans hy
      · rintro obj t ⟨⟩
  | typed hy hd =>
      refine ⟨?_, fun h => (hconstant h).elim, fun _ y' hy' => ?_, ?_, hvalue⟩
      · rintro obj t ⟨⟩
        exact (hsane.backed hd.backed).1
      · cases hy.symm.trans hy'
        rintro obj t ⟨⟩
        exact hd
      · rintro obj t ⟨⟩ hvalid
        exact sense_of_declared (.inr hrole) hy hd hvalid

theorem DeclaredAs.isTyped {declared : Option TypeId} (h : DeclaredAs file start entry declared pkg) (obj : Object) :
    ({ obj with typ := declared } : Object).IsTyped file entry := by
  intro hpart
  cases h with
  | untyped hmissing =>
      rw [hmissing] at hpart
      cases hpart
  | typed => rfl

namespace Meanings

variable {m : Meanings} (hm : m.Honest file start)

/-- The declaration that is under way gives something to one of its names. -/
theorem update_yields {f : Object → Object} (hrole : entry.role ≠ .type)
    (hname : ({ entry with name } : Entry).Fits file) (hsame : ∀ obj, (f obj).role = obj.role) (hQ : ∀ obj, Q (f obj))
    (hP : ∀ pkg, pkg.Sane file start → P pkg →
      Holding entry Object.IsBare name pkg ∧ Fills file start entry name f pkg) :
    Yields file start [name] P (ResolveM.update name f) fun _ => Holding entry Q name := by
  intro pkg hsane hpkg
  obtain ⟨⟨hresolving, hbare⟩, hfills⟩ := hP pkg hsane hpkg
  have hgains (obj : Object) (hobj : pkg.objects.get? name = some obj) : obj.Gains (f obj) := by
    obtain ⟨htyp, hvalue⟩ := hbare obj hobj
    refine ⟨hsame obj, fun t ht => ?_, fun v hv => ?_⟩
    · cases htyp.symm.trans ht
    · cases hvalue.symm.trans hv
  have hself : (pkg.objects.modify name f).get? name = (pkg.objects.get? name).map f := NodeMap.get?_modify_self _ _ _
  obtain ⟨hsane', -⟩ := hsane.give hrole hname hresolving hfills.knows hgains hfills.constant hfills.declared
    hfills.sense fun obj v hobj => hfills.value obj v (hbare obj hobj)
  refine ⟨hsane', ⟨.of_tasks_eq ⟨rfl, rfl, rfl, rfl, .refl⟩ rfl, fun e _ obj hobj => ?_, fun e _ _ hne => ?_,
    fun hflawed => hflawed, List.Subset.refl _⟩, hresolving, fun obj hobj => ?_⟩
  · show ∃ obj', (pkg.objects.modify name f).get? e.name = some obj' ∧ _
    by_cases heq : e.name = name
    · rw [heq] at hobj ⊢
      exact ⟨f obj, by rw [hself, hobj]; rfl, hgains obj hobj⟩
    · exact ⟨obj, by rw [NodeMap.get?_modify_of_ne _ _ heq]; exact hobj, .refl obj⟩
  · exact NodeMap.get?_modify_of_ne _ _ fun heq => hne (List.mem_singleton.2 heq)
  · obtain ⟨old, -, rfl⟩ := Option.map_eq_some_iff.1 (hself.symm.trans hobj)
    exact hQ old

/-- Whether there is a mismatch depends on the types only. -/
theorem mismatches_yields (value declared : TypeId) :
    Yields file start own P (ResolveM.mismatches value declared) fun b pkg =>
      P pkg ∧ b = (!pkg.types.isInvalid declared && !pkg.types.assignable value declared) := by
  refine .types fun tt => .pure ?_
  rintro pkg - ⟨hpkg, rfl⟩
  exact ⟨hpkg, rfl⟩

/-- A mismatch is fair when it is found. -/
theorem fair_of_mismatch {t d : TypeId} {cause : SemanticFault} (hsane : pkg.Sane file start)
    (ht : pkg.types.Knows t) (hd : pkg.types.Knows d)
    (hcause : ∀ x, cause.mismatch? = some x → x = (pkg.types.spell t, pkg.types.spell d))
    (hmismatch : (!pkg.types.isInvalid d && !pkg.types.assignable t d) = true) : cause.Fair start pkg.types := by
  intro value declared hshown
  cases hcause _ hshown
  obtain ⟨hvalid, hassignable⟩ := Bool.and_eq_true_iff.1 hmismatch
  exact ⟨pkg.types, t, d, hsane.begins, .refl, ht, hd, rfl, rfl, by simpa using hvalid, by simpa using hassignable⟩

/-! ### Constants -/

/-- A value that has been stored under a declared type has its kind. -/
theorem suits_declared {v : ConstValue} {t d : TypeId} (hv : pkg.types.Suits v t) (hd : pkg.types.Knows d)
    (hfits : (!pkg.types.isInvalid d && !pkg.types.assignable t d) = false) :
    pkg.types.Suits { v with kind := pkg.types.kind d } d := by
  refine ⟨hd, ?_, rfl⟩
  cases hinvalid : pkg.types.isInvalid d with
  | true => exact (Bool.and_eq_true_iff.1 hinvalid).1
  | false =>
      rw [hinvalid] at hfits
      exact bound_of_assignable (by simpa using hfits) hv.bound

include hm in
theorem constantDecl_yields {declared : Option TypeId} {value : NodeId} (hrole : entry.role = .constant)
    (hname : ({ entry with name } : Entry).Fits file) (hvalue : Initializes file { entry with name } value) :
    Yields file start [name]
      (fun pkg => DeclaredAs file start entry declared pkg ∧ Holding entry Object.IsBare name pkg)
      (m.constantDecl declared name value) fun _ => Holding entry (fun _ => True) name := by
  have htype : entry.role ≠ .type := by simp [hrole]
  have hdurable : Durable file [] fun pkg =>
      DeclaredAs file start entry declared pkg ∧ Holding entry Object.IsBare name pkg :=
    (durable_declaredAs declared).and (durable_holding hname List.not_mem_nil)
  have hvariable : entry.role = .variable → False := by simp [hrole]
  refine (hm.constant value).any.bind hdurable fun x => ?_
  cases declared with
  | none =>
      refine update_yields htype hname (fun _ => rfl) (fun _ => trivial) ?_
      rintro pkg - ⟨⟨⟨huntyped⟩, hbare⟩, hx⟩
      refine ⟨hbare, ?_, fun _ _ => .inr ⟨x.1, x.2, rfl, rfl, hx.suits⟩, fun h => (hvariable h).elim, ?_, ?_⟩
      · rintro obj t ⟨⟩
        exact hx.suits.knows
      · rintro obj t ⟨⟩ hvalid
        obtain ⟨S, hS, hstands⟩ := hx.typed.sense hvalid
        have hsense : EntitySense file (Says file (pkg.setting start)) { entry with name } S :=
          .constant hrole huntyped hvalue hS
        exact ⟨S, (Rule.name hsense).said, hstands⟩
      · rintro obj v - ⟨⟩
        exact ⟨value, hvalue, hx.states⟩
  | some d =>
      refine .types fun tt => (mismatches_yields x.2 d).seq fun b => .ite (fun hmismatch => ?_) fun hfits => ?_
      · rintro pkg hsane ⟨⟨⟨⟨hdeclares, -⟩, hx⟩, rfl⟩, rfl⟩
        obtain _ | ⟨-, hd⟩ := hdeclares
        refine ⟨hsane, .refl pkg, fair_of_mismatch hsane hx.suits.knows (hsane.backed hd.backed).1 ?_ hmismatch⟩
        rintro x ⟨⟩
        rfl
      · refine update_yields htype hname (fun _ => rfl) (fun _ => trivial) ?_
        rintro pkg hsane ⟨⟨⟨⟨hdeclares, hbare⟩, hx⟩, rfl⟩, rfl⟩
        obtain _ | ⟨hy, hd⟩ := hdeclares
        have hknown := (hsane.backed hd.backed).1
        refine ⟨hbare, ?_, fun _ _ => .inr ⟨_, d, rfl, rfl, suits_declared hx.suits hknown (by simpa using hfits)⟩,
          fun h => (hvariable h).elim, ?_, ?_⟩
        · rintro obj t ⟨⟩
          exact hknown
        · rintro obj t ⟨⟩ hvalid
          exact sense_of_declared (.inl hrole) hy hd hvalid
        · rintro obj v - ⟨⟩
          exact ⟨value, hvalue, hx.states⟩

/-! ### Variables -/

theorem giveVariable_yields (declared : Option TypeId) (inferred : Option (NodeId × TypeId))
    (hrole : entry.role = .variable) (hname : ({ entry with name } : Entry).Fits file)
    (hvalue : ∀ x, inferred = some x → Initializes file { entry with name } x.1) :
    Yields file start [name]
      (fun pkg => (DeclaredAs file start entry declared pkg ∧ Holding entry Object.IsBare name pkg) ∧
        ∀ x, inferred = some x → HasType file start x.1 x.2 pkg)
      (giveVariable declared name inferred) fun _ => Holding entry (Object.IsTyped file entry) name := by
  have htype : entry.role ≠ .type := by simp [hrole]
  have hdeclared : Yields file start [name]
      (fun pkg => DeclaredAs file start entry declared pkg ∧ Holding entry Object.IsBare name pkg)
      (ResolveM.update name (fun obj => { obj with typ := declared })) fun _ =>
        Holding entry (Object.IsTyped file entry) name := by
    rintro pkg hsane ⟨hdeclares, hbare⟩
    refine update_yields (f := fun obj => { obj with typ := declared }) (P := (· = pkg)) htype hname (fun _ => rfl)
      hdeclares.isTyped ?_ pkg hsane rfl
    rintro _ - rfl
    exact ⟨hbare, hdeclares.fills hsane hrole⟩
  unfold giveVariable
  cases declared with
  | none =>
      cases inferred with
      | none => exact hdeclared.pre fun _ _ h => h.1
      | some x =>
          rintro pkg hsane ⟨⟨⟨hmissing⟩, hbare⟩, hx⟩
          have hdurable : Durable file [] (Holding entry Object.IsBare name) := durable_holding hname List.not_mem_nil
          have hinferred : Yields file start [] (HasType file start x.1 x.2) (some <$> ResolveM.defaultType x.1 x.2)
              fun o pkg => ∀ u, o = some u → pkg.types.Knows u ∧ (u ≠ TypeTable.invalid →
                ∃ S, Says file (pkg.setting start) (.value x.1) S ∧ pkg.Stands file start u S.default) := by
            refine defaultType_yields.map fun t _ _ ht => ?_
            rintro u ⟨⟩
            exact ht
          refine (((hinferred.frame hdurable).widen (List.nil_subset [name])).seq fun typ => ?_) pkg hsane
            ⟨hx x rfl, hbare⟩
          refine update_yields htype hname (fun _ => rfl) (fun _ hpart => ?_) ?_
          · rw [hmissing] at hpart
            cases hpart
          · rintro pkg - ⟨htyp, hbare⟩
            refine ⟨hbare, fun _ t ht => (htyp t ht).1, fun h => ?_, fun _ y hy => ?_, fun _ t ht hvalid => ?_,
              fun _ v hbare hv => ?_⟩
            · cases hrole.symm.trans h
            · cases hmissing.symm.trans hy
            · obtain ⟨S, hS, hstands⟩ := (htyp t ht).2 hvalid
              have hsense : EntitySense file (Says file (pkg.setting start)) { entry with name } S.default :=
                .initialized hrole hmissing (hvalue x rfl) hS
              exact ⟨S.default, (Rule.name hsense).said, hstands⟩
            · cases hbare.2.symm.trans hv
  | some d =>
      cases inferred with
      | none => exact hdeclared.pre fun _ _ h => h.1
      | some x =>
          refine (mismatches_yields x.2 d).seq fun b => .ite (fun hmismatch => ?_) fun _ => ?_
          · refine .types fun tt => .tree ?_
            rintro pkg hsane ⟨⟨⟨⟨hdeclares, -⟩, hx⟩, rfl⟩, rfl⟩
            obtain _ | ⟨-, hd⟩ := hdeclares
            refine ⟨hsane, .refl pkg, fair_of_mismatch hsane (hx x rfl).knows (hsane.backed hd.backed).1 ?_ hmismatch⟩
            rintro y ⟨⟩
            rfl
          · exact hdeclared.pre fun _ _ h => h.1.1

include hm in
theorem variableDecl_yields (declared : Option TypeId) (value : Option NodeId) (hrole : entry.role = .variable)
    (hname : ({ entry with name } : Entry).Fits file)
    (hvalue : ∀ v, value = some v → Initializes file { entry with name } v) :
    Yields file start [name]
      (fun pkg => DeclaredAs file start entry declared pkg ∧ Holding entry Object.IsBare name pkg)
      (m.variableDecl declared name value) fun _ => Holding entry (Object.IsTyped file entry) name := by
  cases value with
  | none => exact (giveVariable_yields declared none hrole hname nofun).pre fun pkg _ h => ⟨h, nofun⟩
  | some v =>
      have hdurable : Durable file [] fun pkg =>
          DeclaredAs file start entry declared pkg ∧ Holding entry Object.IsBare name pkg :=
        (durable_declaredAs declared).and (durable_holding hname List.not_mem_nil)
      refine (hm.value v).any.bind hdurable fun o => ?_
      have hitem (x : NodeId × TypeId) (hx : (o.map fun t => (v, t)) = some x) : x.1 = v ∧ o = some x.2 := by
        obtain ⟨t, ht, rfl⟩ := Option.map_eq_some_iff.1 hx
        exact ⟨rfl, ht⟩
      refine (giveVariable_yields declared (o.map fun t => (v, t)) hrole hname fun x hx => ?_).pre
        fun pkg _ h => ⟨h.1, fun x hx => ?_⟩
      · rw [(hitem x hx).1]
        exact hvalue v rfl
      · rw [(hitem x hx).1]
        exact h.2 x.2 (hitem x hx).2

/-! ### Lists of names -/

section

variable {declared : Option TypeId} {names values : List NodeId} (hnodup : names.Nodup)
  (hnames : ∀ name ∈ names, ({ entry with name } : Entry).Fits file)
  (hvalues : ∀ (i : Nat) name value, names[i]? = some name → values[i]? = some value →
    Initializes file { entry with name } value)
include hm hnodup hnames hvalues

theorem constantDecls_yields (hrole : entry.role = .constant) :
    Yields file start names
      (fun pkg => DeclaredAs file start entry declared pkg ∧ ∀ name ∈ names, Holding entry Object.IsBare name pkg)
      (m.constantDecls entry.spec declared names values) fun _ _ => True := by
  unfold constantDecls
  refine .check rfl fun hlength => .check rfl fun _ => ?_
  have hpairs : (names.zip values).map Prod.fst = names :=
    List.map_fst_zip (Nat.le_of_not_lt fun hlt => hlength (.inl hlt))
  have hfits (x : NodeId × NodeId) (hx : x ∈ names.zip values) : ({ entry with name := x.1 } : Entry).Fits file :=
    hnames x.1 (List.of_mem_zip hx).1
  have hvalue (x : NodeId × NodeId) (hx : x ∈ names.zip values) : Initializes file { entry with name := x.1 } x.2 := by
    obtain ⟨i, hi⟩ := List.mem_iff_getElem?.1 hx
    obtain ⟨hname, hvalue⟩ := List.getElem?_zip_eq_some.1 hi
    exact hvalues i x.1 x.2 hname hvalue
  have hloop : Yields file start ((names.zip values).map Prod.fst)
      (fun pkg => DeclaredAs file start entry declared pkg ∧
        ∀ x ∈ names.zip values, Holding entry Object.IsBare x.1 pkg)
      ((names.zip values).forM fun x => m.constantDecl declared x.1 x.2)
      fun _ pkg => ∀ x ∈ names.zip values, Holding entry (fun _ => True) x.1 pkg :=
    .forM _ (by rwa [hpairs]) (fun _ => durable_declaredAs declared)
      (fun x hx _ hown => durable_holding (hfits x hx) hown) (fun x hx _ hown => durable_holding (hfits x hx) hown)
      fun x hx => constantDecl_yields hm hrole (hfits x hx) (hvalue x hx)
  rw [hpairs] at hloop
  exact (hloop.pre fun pkg _ h => ⟨h.1, fun x hx => h.2 x.1 (List.of_mem_zip hx).1⟩).mono fun _ _ _ _ => trivial

theorem variableDecls_yields (hrole : entry.role = .variable) :
    Yields file start names
      (fun pkg => DeclaredAs file start entry declared pkg ∧ ∀ name ∈ names, Holding entry Object.IsBare name pkg)
      (m.variableDecls entry.spec declared names values) fun _ pkg =>
        ∀ name ∈ names, Holding entry (Object.IsTyped file entry) name pkg := by
  unfold variableDecls
  refine .check rfl fun _ => ?_
  have hpairs : names.zipIdx.map Prod.fst = names := List.zipIdx_map_fst _ _
  have hfits (x : NodeId × Nat) (hx : x ∈ names.zipIdx) : ({ entry with name := x.1 } : Entry).Fits file :=
    hnames x.1 (List.fst_mem_of_mem_zipIdx hx)
  have hloop : Yields file start (names.zipIdx.map Prod.fst)
      (fun pkg => DeclaredAs file start entry declared pkg ∧ ∀ x ∈ names.zipIdx, Holding entry Object.IsBare x.1 pkg)
      (names.zipIdx.forM fun x => m.variableDecl declared x.1 values[x.2]?)
      fun _ pkg => ∀ x ∈ names.zipIdx, Holding entry (Object.IsTyped file entry) x.1 pkg :=
    .forM _ (by rwa [hpairs]) (fun _ => durable_declaredAs declared)
      (fun x hx _ hown => durable_holding (hfits x hx) hown) (fun x hx _ hown => durable_holding (hfits x hx) hown)
      fun x hx => variableDecl_yields hm declared values[x.2]? hrole (hfits x hx) fun v hv =>
        hvalues x.2 x.1 v (List.mem_zipIdx_iff_getElem?.1 hx) hv
  rw [hpairs] at hloop
  refine (hloop.pre fun pkg _ h => ⟨h.1, fun x hx => h.2 x.1 (List.fst_mem_of_mem_zipIdx hx)⟩).mono ?_
  intro _ pkg _ h name hname
  rw [← hpairs] at hname
  obtain ⟨x, hx, rfl⟩ := List.mem_map.1 hname
  exact h x hx

end

/-! ### Declarations by kind -/

include hm in
theorem valueSpec_yields (hforest : file.tree.Forest) (hentry : entry.Fits file)
    (hvalue : entry.role = .constant ∨ entry.role = .variable) :
    Yields file start (file.namesIn entry.spec)
      (fun pkg => ∀ name ∈ file.namesIn entry.spec, Holding entry Object.IsBare name pkg)
      (m.valueSpec entry) fun _ pkg => entry.role = .variable →
        ∀ name ∈ file.namesIn entry.spec, Holding entry (Object.IsTyped file entry) name pkg := by
  have hnames : ∀ name ∈ file.namesIn entry.spec, ({ entry with name } : Entry).Fits file :=
    fun name hname => hentry.named hvalue hname
  have hnodup := nodup_namesIn hforest entry.spec
  have hbare : Durable file [] fun pkg => ∀ name ∈ file.namesIn entry.spec, Holding entry Object.IsBare name pkg :=
    durable_forall fun name => fun _ _ horderly honto h hname =>
      durable_holding (hnames name hname) List.not_mem_nil horderly honto (h hname)
  have hvalues (i : Nat) (name value : NodeId) (hname : (file.namesIn entry.spec)[i]? = some name)
      (hvalue : (file.valuesIn entry.spec)[i]? = some value) : Initializes file { entry with name } value :=
    initializes_of_items hname hvalue
  have hdecls (declared : Option TypeId) : Yields file start (file.namesIn entry.spec)
      (fun pkg => (∀ name ∈ file.namesIn entry.spec, Holding entry Object.IsBare name pkg) ∧
        DeclaredAs file start entry declared pkg)
      (if entry.role = .constant then
        m.constantDecls entry.spec declared (file.namesIn entry.spec) (file.valuesIn entry.spec)
      else m.variableDecls entry.spec declared (file.namesIn entry.spec) (file.valuesIn entry.spec))
      fun _ pkg => entry.role = .variable →
        ∀ name ∈ file.namesIn entry.spec, Holding entry (Object.IsTyped file entry) name pkg := by
    refine .ite (fun hconstant => ?_) fun hvariable => ?_
    · refine ((constantDecls_yields hm hnodup hnames hvalues hconstant).pre fun _ _ h => h.symm).mono ?_
      intro _ _ _ _ hvariable
      cases hconstant.symm.trans hvariable
    · have hvariable := hvalue.resolve_left hvariable
      exact ((variableDecls_yields hm hnodup hnames hvalues hvariable).pre fun _ _ h => h.symm).mono fun _ _ _ h _ => h
  refine .tree ?_
  cases htype : file.tree.part? entry.spec 1 with
  | none => exact (hdecls none).pre fun pkg _ h => ⟨h, .untyped htype⟩
  | some y =>
      have hmeaning : Yields file start [] (fun _ => True) (some <$> m.type y) (DeclaredAs file start entry) :=
        (hm.type y).map fun _ _ _ h => .typed htype h
      exact hmeaning.any.bind hbare hdecls

include hm in
theorem function_yields (hentry : entry.Fits file) (hrole : entry.role = .function) :
    Yields file start [entry.name] (Holding entry Object.IsBare entry.name) (m.function entry) fun _ _ => True := by
  have htype : entry.role ≠ .type := by simp [hrole]
  refine .part fun c hc => (hm.type c).any.bind (durable_holding hentry List.not_mem_nil) fun signature => ?_
  refine .get fun q _ _ => ?_
  cases q.objects.get? entry.name with
  | none => exact .pure fun _ _ _ => trivial
  | some obj =>
      refine .check rfl fun _ => Yields.mono (Q := fun _ => Holding entry (fun _ => True) entry.name) ?_
        fun _ _ _ _ => trivial
      refine update_yields htype hentry (fun _ => rfl) (fun _ => trivial) ?_
      rintro pkg hsane ⟨⟨hbare, hanswers⟩, -⟩
      refine ⟨hbare, ?_, fun h => ?_, fun h => ?_, ?_, fun _ v hbare hv => ?_⟩
      · rintro _ t ⟨⟩
        exact (hsane.backed hanswers.backed).1
      · cases hrole.symm.trans h
      · cases hrole.symm.trans h
      · rintro _ t ⟨⟩ hvalid
        obtain ⟨-, S, hS, hstands⟩ := hanswers.signifies hvalid
        exact ⟨S, (Rule.name (.function hrole hc hS)).said, hstands⟩
      · cases hbare.2.symm.trans hv

include hm in
/-- A declaration gives something to its own names only, and variables that are declared with a type have it. -/
theorem byRole_yields (hforest : file.tree.Forest) (hentry : entry.Fits file) (hrole : entry.role ≠ .type) :
    ∃ own, (∀ name ∈ own, ({ entry with name } : Entry).Fits file) ∧
      Yields file start own (fun pkg => ∀ name ∈ own, Holding entry Object.IsBare name pkg) (m.byRole entry)
        fun _ pkg => entry.role = .variable → ∀ e : Entry, e.Fits file → e.spec = entry.spec →
          Holding entry (Object.IsTyped file entry) e.name pkg := by
  have hother {own : List NodeId} {P : Package → Prop} {a : ResolveM Unit} (hvariable : entry.role ≠ .variable)
      (h : Yields file start own P a fun _ _ => True) : Yields file start own P a fun _ pkg =>
        entry.role = .variable → ∀ e : Entry, e.Fits file → e.spec = entry.spec →
          Holding entry (Object.IsTyped file entry) e.name pkg :=
    h.mono fun _ _ _ _ h => absurd h hvariable
  have hvalue (hvalue : entry.role = .constant ∨ entry.role = .variable) :
      ∃ own, (∀ name ∈ own, ({ entry with name } : Entry).Fits file) ∧
        Yields file start own (fun pkg => ∀ name ∈ own, Holding entry Object.IsBare name pkg) (m.valueSpec entry)
          fun _ pkg => entry.role = .variable → ∀ e : Entry, e.Fits file → e.spec = entry.spec →
            Holding entry (Object.IsTyped file entry) e.name pkg := by
    refine ⟨file.namesIn entry.spec, fun name hname => hentry.named hvalue hname,
      (valueSpec_yields hm hforest hentry hvalue).mono fun _ pkg _ h hvariable e he hspec => h hvariable e.name ?_⟩
    have hsame := (he.role_eq hforest hentry hspec).trans hvariable
    cases he with
    | value _ _ _ hnames hname =>
        rw [ParsedFile.namesIn, ← hspec, hnames]
        exact hname
    | type => cases hsame
    | function => cases hsame
    | import_ => cases hsame
  unfold byRole
  split
  · next h => exact absurd h hrole
  · next h => exact hvalue (.inl h)
  · next h => exact hvalue (.inr h)
  · next h =>
      refine ⟨[entry.name], fun name hname => ?_, hother (by simp [h]) ((function_yields hm hentry h).pre ?_)⟩
      · rw [List.mem_singleton.1 hname]
        exact hentry
      · exact fun _ _ hbare => hbare _ (List.mem_singleton_self _)
  · next h => exact ⟨[], nofun, hother (by simp [h]) (.pure fun _ _ _ => trivial)⟩
  · next h => exact ⟨[], nofun, hother (by simp [h]) (.pure fun _ _ _ => trivial)⟩

/-! ### Whole declarations -/

theorem recorded_none (pkg : Package) : pkg.recorded none = pkg := by
  rw [Package.recorded, Option.toList_none]
  exact congrArg (fun faults => { pkg with faults }) Array.append_empty

theorem methods_means {meaning : TypeId} (h : Means entry meaning pkg pkg') : pkg'.methods = pkg.methods := by
  cases h with
  | bound => rfl
  | taken => rfl

/-- What a declaration does from its beginning to its end, seen from outside. -/
theorem onto_of_declared {pkg₁ pkg₂ : Package} (hforest : file.tree.Forest) (hentry : entry.Fits file)
    (hpending : pkg.progress? entry.spec = some .pending)
    (hown : ∀ name ∈ own, ({ entry with name } : Entry).Fits file)
    (honto : Onto file own (pkg.setProgress entry.spec .resolving) pkg₁) (honward : Onward pkg pkg₂)
    (hgains : ∀ id obj, pkg₁.objects.get? id = some obj → ∃ obj', pkg₂.objects.get? id = some obj' ∧ obj.Gains obj')
    (hstill : ∀ id, id ≠ entry.name → pkg₂.objects.get? id = pkg₁.objects.get? id)
    (hflawed : pkg₁.Flawed file → pkg₂.Flawed file) (hmethods : pkg₂.methods = pkg₁.methods) :
    Onto file [] pkg pkg₂ := by
  refine ⟨honward, fun e he obj hobj => ?_, fun e he hbegun _ => ?_, fun h => hflawed (honto.flawed h),
    hmethods ▸ honto.methods⟩
  · obtain ⟨obj₁, hobj₁, hfirst⟩ := honto.gains e he obj hobj
    obtain ⟨obj₂, hobj₂, hsecond⟩ := hgains e.name obj₁ hobj₁
    exact ⟨obj₂, hobj₂, hfirst.trans hsecond⟩
  · have hne : e.spec ≠ entry.spec := fun heq => hbegun (heq ▸ hpending)
    have hstarted : (pkg.setProgress entry.spec .resolving).progress? e.spec ≠ some .pending := by
      rwa [Package.progress?_setProgress_of_ne hne]
    rw [hstill e.name fun hname => hne (he.spec_eq_of_name hforest hentry hname)]
    refine honto.still e he hstarted fun hmem => hne ?_
    have hsame : e.spec = ({ entry with name := e.name } : Entry).spec := he.spec_eq_of_name hforest (hown _ hmem) rfl
    exact hsame

section Whole

variable (hlawful : m.Lawful file) (hentry : entry.Fits file) (hsane : pkg.Sane file start)
  (hpending : pkg.progress? entry.spec = some .pending)
include hlawful hentry hsane

omit hsane in
/-- The package after a declaration, if the run goes on. -/
theorem onward_of_resolve (horderly : pkg.Orderly file) {x : Unit}
    (hrun : m.resolve entry file pkg = (.ok x, pkg')) :
    Onward pkg pkg' ∧ pkg'.progress? entry.spec ≠ some .pending := by
  have hends : Ends file none (fun _ => False) pkg (fun _ pkg => pkg.progress? entry.spec ≠ some .pending)
      (m.resolve entry file pkg) := resolve_ends hlawful hentry horderly
  rw [hrun] at hends
  obtain ⟨⟨es, hwork⟩, hdone⟩ := hends
  exact ⟨.of_work hwork, hdone⟩

include hm hpending

/-- The declaration of constants, variables or a function. -/
theorem resolve_value_outcome (hrole : entry.role ≠ .type) :
    Outcome file start [] pkg (fun _ pkg => pkg.progress? entry.spec ≠ some .pending) (m.resolve entry file pkg) := by
  have hbegun := hsane.begin hpending
  obtain ⟨own, hown, hyields⟩ := byRole_yields hm hsane.forest hentry hrole
  have hself : (pkg.setProgress entry.spec .resolving).progress? entry.spec = some .resolving :=
    Package.progress?_setProgress_self (by rw [hpending]; rfl)
  have hout := hyields _ hbegun fun name hname => ⟨hself, fun obj hobj =>
    (hsane.formed { entry with name } (hown name hname) obj hobj).bare hrole hpending⟩
  -- The end of the declaration, with a fault or without.
  have hdone (fault : Option (Diagnostic SemanticFault)) {pkg₁ : Package} (hsane₁ : pkg₁.Sane file start)
      (honto : Onto file own (pkg.setProgress entry.spec .resolving) pkg₁)
      (hfault : ∀ d, fault = some d → d.cause.Fair start pkg₁.types)
      (hgiven : fault = none → entry.role = .variable → ∀ e : Entry, e.Fits file → e.spec = entry.spec →
        Holding entry (Object.IsTyped file entry) e.name pkg₁)
      (hrun : m.resolve entry file pkg = (.ok (), (pkg₁.setProgress entry.spec .done).recorded fault)) :
      Outcome file start [] pkg (fun _ pkg => pkg.progress? entry.spec ≠ some .pending) (m.resolve entry file pkg) := by
    have hresolving := resolving_of_begun hpending honto.onward
    obtain ⟨hended, hretains⟩ := hsane₁.ended hentry hrole hresolving hfault
      fun hnone hvariable hpart e he hspec obj hobj => (hgiven hnone hvariable e he hspec).2 obj hobj hpart
    obtain ⟨honward, hnot⟩ := onward_of_resolve hlawful hentry hsane.toOrderly hrun
    rw [hrun]
    exact ⟨hended, onto_of_declared hsane.forest hentry hpending hown honto honward
      (fun _ obj hobj => ⟨obj, hobj, .refl obj⟩) (fun _ _ => rfl) hretains.flawed rfl, hnot⟩
  have heq : m.resolve entry file pkg = _ := resolve_eq m hpending
  rcases hrun : m.byRole entry file (pkg.setProgress entry.spec .resolving) with ⟨(d | fault) | x, pkg₁⟩
  · rw [hrun] at hout heq
    obtain ⟨hsane₁, honto, hfair⟩ := hout
    refine hdone (some d) hsane₁ honto ?_ nofun ?_
    · rintro d' ⟨⟩
      exact hfair
    · dsimp only at heq
      rw [if_neg hrole] at heq
      exact heq.trans (record_eq d _)
  · rw [hrun] at hout heq
    rw [heq]
    exact hout
  · rw [hrun] at hout heq
    obtain ⟨hsane₁, honto, hgiven⟩ := hout
    refine hdone none hsane₁ honto nofun (fun _ => hgiven) ?_
    rw [heq, recorded_none]

/-- The declaration of a type or an alias. -/
theorem resolve_type_outcome (hrole : entry.role = .type) :
    Outcome file start [] pkg (fun _ pkg => pkg.progress? entry.spec ≠ some .pending) (m.resolve entry file pkg) := by
  have hmeaning : Yields file start [] (fun _ => True) (ResolveM.part entry.spec 1 >>= m.type) fun t pkg =>
      ∃ y, file.tree.part? entry.spec 1 = some y ∧ Answers file start y t pkg :=
    .part fun y hy => (hm.type y).mono fun _ _ _ h => ⟨y, hy, h⟩
  have hout := hmeaning _ (hsane.begin hpending) trivial
  have hbyRole : m.byRole entry = (ResolveM.part entry.spec 1 >>= m.type) >>= takeMeaning entry := by
    rw [byRole, hrole, bind_assoc]
    rfl
  -- The end of the declaration, once its type has got a meaning.
  have hdone (fault : Option (Diagnostic SemanticFault)) {pkg₁ pkg₂ : Package} {meaning : TypeId}
      (hsane₁ : pkg₁.Sane file start) (honto : Onto file [] (pkg.setProgress entry.spec .resolving) pkg₁)
      (hmeans : Means entry meaning pkg₁ pkg₂) (hrooted : pkg₁.Rooted file meaning)
      (hsignifies : meaning ≠ TypeTable.invalid →
        ∃ y, file.tree.part? entry.spec 1 = some y ∧ Signifies file start pkg₁ y meaning)
      (hfault : ∀ d, fault = some d → d.cause.Fair start pkg₁.types)
      (hvalid : fault = none → pkg₁.types.isInvalid meaning = true → pkg₁.Flawed file)
      (hrun : m.resolve entry file pkg = (.ok (), (pkg₂.setProgress entry.spec .done).recorded fault)) :
      Outcome file start [] pkg (fun _ pkg => pkg.progress? entry.spec ≠ some .pending) (m.resolve entry file pkg) := by
    have hresolving := resolving_of_begun hpending honto.onward
    obtain ⟨hended, hretains⟩ := hsane₁.means hentry hrole hresolving hmeans hrooted hsignifies hfault hvalid
    obtain ⟨honward, hnot⟩ := onward_of_resolve hlawful hentry hsane.toOrderly hrun
    have hmethods := methods_means hmeans
    rw [hrun]
    exact ⟨hended, onto_of_declared hsane.forest hentry hpending (fun _ h => absurd h List.not_mem_nil) honto honward
      (fun _ _ hobj => hmeans.gains hobj) (fun _ hne => hmeans.get?_eq hne) hretains.flawed hmethods, hnot⟩
  have hpoisoned {pkg₁ : Package} {d : Diagnostic SemanticFault} (hsane₁ : pkg₁.Sane file start)
      (honto : Onto file [] (pkg.setProgress entry.spec .resolving) pkg₁) (hfair : d.cause.Fair start pkg₁.types)
      (hrun : m.byRole entry file (pkg.setProgress entry.spec .resolving) = (.error (.declaration d), pkg₁)) :
      Outcome file start [] pkg (fun _ pkg => pkg.progress? entry.spec ≠ some .pending) (m.resolve entry file pkg) := by
    obtain ⟨pkg₂, hpoison, hmeans⟩ :=
      poison_ends hsane₁.toOrderly ⟨hentry, hrole, .inr (resolving_of_begun hpending honto.onward)⟩
    have hbound : (pkg₁.types.underlying? TypeTable.invalid).isSome := by
      rw [TypeTable.underlying?, hsane₁.regular.shape_invalid]
      rfl
    refine hdone (some d) hsane₁ honto hmeans (.inl hbound) (fun h => absurd rfl h) ?_
      (fun h => absurd h (Option.some_ne_none d)) ?_
    · rintro d' ⟨⟩
      exact hfair
    · rw [resolve_eq m hpending, hrun]
      dsimp only
      rw [if_pos hrole, ResolveM.run_bind hpoison]
      exact record_eq d _
  rcases hrun : (ResolveM.part entry.spec 1 >>= m.type) file (pkg.setProgress entry.spec .resolving) with
    ⟨(d | fault) | t, pkg₁⟩
  · rw [hrun] at hout
    obtain ⟨hsane₁, honto, hfair⟩ := hout
    refine hpoisoned hsane₁ honto hfair ?_
    rw [hbyRole, ResolveM.bind_run, hrun]
  · rw [hrun] at hout
    rw [resolve_eq m hpending, hbyRole, ResolveM.bind_run, hrun]
    exact hout
  · rw [hrun] at hout
    obtain ⟨hsane₁, honto, y, hy, hanswers⟩ := hout
    obtain ⟨hknown, hrooted, hvalid⟩ := hsane₁.backed hanswers.backed
    obtain ⟨pkg₂, htake, hmeans⟩ | ⟨d, name, htake, -, hcause, -⟩ :=
      takeMeaning_ends hsane₁.toOrderly ⟨hentry, hrole, .inr (resolving_of_begun hpending honto.onward)⟩ hknown
    · refine hdone none hsane₁ honto hmeans hrooted (fun hne => ⟨y, hy, hanswers.signifies hne⟩)
        (fun d h => absurd h.symm (Option.some_ne_none d)) (fun _ => hvalid) ?_
      rw [resolve_eq m hpending, hbyRole, ResolveM.bind_run, hrun]
      dsimp only
      rw [htake, recorded_none]
    · refine hpoisoned hsane₁ honto (SemanticFault.fair_of_none (by rw [hcause]; rfl)) ?_
      rw [hbyRole, ResolveM.bind_run, hrun]
      exact htake

end Whole

include hm in
/-- Resolving a declaration leaves a package sane. -/
theorem resolve_yields (hlawful : m.Lawful file) (hentry : entry.Fits file) :
    Yields file start [] P (m.resolve entry) fun _ pkg => pkg.progress? entry.spec ≠ some .pending := by
  intro pkg hsane _
  by_cases hpending : pkg.progress? entry.spec = some .pending
  · by_cases hrole : entry.role = .type
    · exact resolve_type_outcome hm hlawful hentry hsane hpending hrole
    · exact resolve_value_outcome hm hlawful hentry hsane hpending hrole
  · rw [Meanings.resolve, ResolveM.run_bind (ResolveM.get_run file pkg), if_pos hpending]
    exact ⟨hsane, .refl pkg, hpending⟩

end Meanings

/-! ### Unfolding -/

/-- The recursion of resolution, unfolded any number of times. -/
theorem honest_unfold (n : Nat) :
    (Meanings.silent.unfold n).Lawful file ∧ (Meanings.silent.unfold n).Honest file start := by
  induction n with
  | zero =>
      refine ⟨⟨?_, ?_, ?_, ?_⟩, ⟨?_, ?_, ?_, ?_⟩⟩
      · exact fun _ pkg _ _ => ⟨⟨0, rfl⟩, rfl, .refl⟩
      · exact fun _ pkg _ _ => ⟨⟨0, rfl⟩, rfl, .refl⟩
      · exact fun _ pkg _ _ => ⟨⟨0, rfl⟩, rfl, .refl⟩
      · exact fun _ pkg _ _ => ⟨⟨0, rfl⟩, rfl, .refl⟩
      · exact fun _ pkg hsane _ => hsane.fair
      · exact fun _ pkg hsane _ => hsane.fair
      · exact fun _ pkg hsane _ => hsane.fair
      · exact fun _ _ pkg hsane _ => hsane.fair
  | succ n ih =>
      obtain ⟨hlawful, hhonest⟩ := ih
      refine ⟨⟨?_, ?_, ?_, ?_⟩, ⟨?_, ?_, ?_, ?_⟩⟩
      · exact fun hid => Meanings.typeExpr_does hlawful hid
      · exact fun hid => Meanings.constantExpr_does hlawful hid
      · exact fun hid => Meanings.valueExpr_does hlawful hid
      · exact fun hentry => Meanings.resolve_does hlawful hentry
      · exact Meanings.typeExpr_yields hhonest
      · exact Meanings.constantExpr_yields hhonest
      · exact Meanings.valueExpr_yields hhonest
      · exact fun entry hentry => (Meanings.resolve_yields hhonest hlawful hentry).mono fun _ _ _ _ => trivial

end GoSource
