import GoSource.Proofs.Package.Lawful

/-!
# Collected names

When the names of a file have been collected, nothing is resolved yet.  Every declared type has a handle of its own
that stands for nothing.

* **`Package.Ready`**: packages in which files can be resolved.
* **`Package.Gathered`**: orderly packages in which all declarations are pending.
* **`Package.Collects`**: what collecting names preserves, by its steps.
* **`gathered_collected`**: collecting names makes such a package.
-/

namespace GoSource

open TypeTable

variable {file : ParsedFile} {pkg : Package} {entry : Entry}

/-- The faults that are found when names are collected. -/
def SemanticFault.isOfNames : SemanticFault → Bool
  | .redeclared _ | .genericType | .genericFunction => true
  | _ => false

namespace Package

/-- A package in which a file can be resolved: its types are regular and the predeclared ones are known. -/
structure Ready (pkg : Package) : Prop where
  regular : pkg.types.Regular
  predeclared : ∀ obj ∈ pkg.outer, ∀ t, obj.typ = some t → pkg.types.Knows t

/-- A package in which all declarations are pending. -/
structure Gathered (file : ParsedFile) (pkg : Package) : Prop extends Orderly file pkg where
  pending : ∀ task ∈ pkg.tasks, task.progress = .pending

theorem Orderly.ready (h : pkg.Orderly file) : pkg.Ready :=
  ⟨h.regular, h.predeclared⟩

theorem Ready.reaches (h : pkg.Ready) {pkg' : Package} (houter : pkg'.outer = pkg.outer)
    (hreaches : Reaches pkg.types pkg'.types) : pkg'.Ready := by
  refine ⟨h.regular.reaches hreaches, fun obj hobj t ht => ?_⟩
  exact (hreaches.grows h.regular.toSound).knows (h.predeclared obj (houter ▸ hobj) t ht)

theorem gathered_reset (h : pkg.Ready) (hforest : file.tree.Forest) (path : String) :
    (pkg.reset path).Gathered file := by
  have hempty (id : NodeId) : (pkg.reset path).objects.get? id = none := rfl
  refine ⟨⟨hforest, h.regular, ?_, h.predeclared, nofun, nofun, List.nodup_nil, ?_, ?_⟩, nofun⟩
  · intro id obj t hobj
    rw [hempty] at hobj
    cases hobj
  · intro entry hentry
    rcases hentry.isOpen with h | h
    · cases h
    · cases h
  · intro entry entry' hentry
    rcases hentry.isOpen with h | h
    · cases h
    · cases h

/-! ### Entering a name -/

theorem progress?_append_of_ne {pkg : Package} {spec : NodeId} (h : spec ≠ entry.spec) :
    ({ pkg with tasks := pkg.tasks ++ [({ entry } : Task)] } : Package).progress? spec = pkg.progress? spec := by
  have hne : ¬ entry.spec = spec := fun heq => h heq.symm
  rw [progress?, progress?, List.find?_append, List.find?_cons_of_neg (by simpa using hne), List.find?_nil,
    Option.or_none]

theorem not_mem_of_progress? {spec : NodeId} (h : pkg.progress? spec = none) :
    spec ∉ (pkg.tasks.map Task.entry).map Entry.spec := by
  rw [progress?, Option.map_eq_none_iff, List.find?_eq_none] at h
  rw [List.map_map, List.mem_map]
  rintro ⟨task, htask, rfl⟩
  exact h task htask (by simp)

section Entered

variable {obj : Object} {scope : List (String × Entry)} {tasks : List Task}
  (htasks : tasks = pkg.tasks ∨ pkg.progress? entry.spec = none ∧ tasks = pkg.tasks ++ [({ entry } : Task)])
include htasks

/-! A name is entered, and its declaration is scheduled unless it is so already or need not be. -/

/-- No other declaration is awaited that was not awaited before. -/
theorem Gathered.awaits_entered {e : Entry} (h : pkg.Gathered file) (hentry : entry.Fits file)
    (he : ({ pkg with scope, tasks, objects := pkg.objects.insert entry.name obj } : Package).Awaits file e)
    (hne : e ≠ entry) : pkg.Awaits file e := by
  refine ⟨he.fits, he.role_eq, ?_⟩
  rcases htasks with rfl | ⟨-, rfl⟩
  · exact he.isOpen
  · have hspec : e.spec ≠ entry.spec := fun hspec =>
      hne (he.fits.eq_of_spec h.forest hentry he.role_eq hspec)
    have hopen := he.isOpen
    rw [Open] at hopen ⊢
    rwa [← progress?_append_of_ne hspec]

theorem distinct_entered (h : ((pkg.tasks.map Task.entry).map Entry.spec).Nodup) :
    ((tasks.map Task.entry).map Entry.spec).Nodup := by
  rcases htasks with rfl | ⟨hnone, rfl⟩
  · exact h
  · rw [List.map_append, List.map_append]
    refine List.Nodup.append h (List.nodup_singleton _) ?_
    intro spec hspec hsame
    rw [List.mem_singleton.1 hsame] at hspec
    exact not_mem_of_progress? hnone hspec

theorem mem_tasks_entered {task : Task} (htask : task ∈ tasks) : task ∈ pkg.tasks ∨ task = { entry } := by
  rcases htasks with rfl | ⟨-, rfl⟩
  · exact .inl htask
  · exact (List.mem_append.1 htask).imp_right List.mem_singleton.1

end Entered

/-- A name is entered.  The handle of a type is one that no other name has. -/
theorem Gathered.entered (h : pkg.Gathered file) (hentry : entry.Fits file) {obj : Object}
    {scope : List (String × Entry)} {tasks : List Task}
    (hscope : ∀ name e, scope.lookup name = some e → e = entry ∨ pkg.declared? name = some e)
    (htasks : tasks = pkg.tasks ∨ pkg.progress? entry.spec = none ∧ tasks = pkg.tasks ++ [({ entry } : Task)])
    (hknown : ∀ t, obj.typ = some t → pkg.types.Knows t)
    (hunbound : ∀ t, obj.typ = some t → pkg.types.Unbound t ∧
      ∀ id obj' t', pkg.objects.get? id = some obj' → obj'.typ = some t' → t' ≠ t) :
    ({ pkg with scope, tasks, objects := pkg.objects.insert entry.name obj } : Package).Gathered file := by
  let after : Package := { pkg with scope, tasks, objects := pkg.objects.insert entry.name obj }
  have hself : after.objects.get? entry.name = some obj := NodeMap.get?_insert_self _ _ _
  have hother {id : NodeId} (hne : id ≠ entry.name) : after.objects.get? id = pkg.objects.get? id :=
    NodeMap.get?_insert_of_ne _ _ hne
  have hobject {e : Entry} (hfits : e.Fits file) (hne : e ≠ entry) :
      after.objects.get? e.name = pkg.objects.get? e.name :=
    hother fun hname => hne (hfits.eq_of_name h.forest hentry hname)
  have hawaits {e : Entry} (he : after.Awaits file e) (hne : e ≠ entry) : pkg.Awaits file e :=
    h.awaits_entered htasks hentry he hne
  -- Nothing else has the type of the new name.
  have halone {e : Entry} {o : Object} {t : TypeId} (he : after.Awaits file e) (hne : e ≠ entry)
      (ho : after.objects.get? e.name = some o) (ht : obj.typ = some t) : o.typ ≠ some t :=
    fun ht' => (hunbound t ht).2 _ o t ((hobject he.fits hne).symm.trans ho) ht' rfl
  exact {
    forest := h.forest
    regular := h.regular
    known := fun id obj' t hobj' ht => by
      by_cases hid : id = entry.name
      · rw [hid] at hobj'
        cases hself.symm.trans hobj'
        exact hknown t ht
      · exact h.known id obj' t ((hother hid).symm.trans hobj') ht
    predeclared := h.predeclared
    declared := fun name e he => by
      rcases hscope name e he with rfl | hold
      · exact hentry
      · exact h.declared name e hold
    listed := fun e he => by
      obtain ⟨task, htask, rfl⟩ := List.mem_map.1 he
      rcases mem_tasks_entered htasks htask with hold | rfl
      · exact h.listed _ (List.mem_map_of_mem hold)
      · exact hentry
    distinct := distinct_entered htasks h.distinct
    awaited := fun e he => by
      by_cases hne : e = entry
      · subst hne
        exact ⟨obj, hself, fun t ht => (hunbound t ht).1⟩
      · obtain ⟨obj', hobj', hold⟩ := h.awaited e (hawaits he hne)
        exact ⟨obj', (hobject he.fits hne).trans hobj', hold⟩
    apart := fun e e' he he' o o' t ho ho' ht ht' => by
      by_cases hne : e = entry
      · by_cases hne' : e' = entry
        · rw [hne, hne']
        · subst hne
          cases hself.symm.trans ho
          exact absurd ht' (halone he' hne' ho' ht)
      · by_cases hne' : e' = entry
        · subst hne'
          cases hself.symm.trans ho'
          exact absurd ht (halone he hne ho ht')
        · exact h.apart e e' (hawaits he hne) (hawaits he' hne') o o' t ((hobject he.fits hne).symm.trans ho)
            ((hobject he'.fits hne').symm.trans ho') ht ht'
    pending := fun task htask => by
      rcases mem_tasks_entered htasks htask with hold | rfl
      · exact h.pending task hold
      · rfl }

theorem lookup_enter {scope : List (String × Entry)} {anonymous : Bool} {declared name : String} {e : Entry}
    (h : (if anonymous then scope else (declared, entry) :: scope).lookup name = some e) :
    e = entry ∨ scope.lookup name = some e := by
  split at h
  · exact .inr h
  · rw [List.lookup_cons] at h
    split at h
    · exact .inl (Option.some.inj h).symm
    · exact .inr h

theorem Gathered.enter (h : pkg.Gathered file) (hentry : entry.Fits file) {obj : Object} (anonymous : Bool)
    (hknown : ∀ t, obj.typ = some t → pkg.types.Knows t)
    (hunbound : ∀ t, obj.typ = some t → pkg.types.Unbound t ∧
      ∀ id obj' t', pkg.objects.get? id = some obj' → obj'.typ = some t' → t' ≠ t) :
    (pkg.enter anonymous entry obj).Gathered file :=
  h.entered hentry (fun _ _ => lookup_enter) (.inl rfl) hknown hunbound

theorem Gathered.schedule (h : pkg.Gathered file) (hentry : entry.Fits file) {obj : Object} (anonymous : Bool)
    (hknown : ∀ t, obj.typ = some t → pkg.types.Knows t)
    (hunbound : ∀ t, obj.typ = some t → pkg.types.Unbound t ∧
      ∀ id obj' t', pkg.objects.get? id = some obj' → obj'.typ = some t' → t' ≠ t) :
    ((pkg.enter anonymous entry obj).schedule entry).Gathered file := by
  rw [Package.schedule]
  split
  · exact h.enter hentry anonymous hknown hunbound
  · next hnone =>
      have hnone : pkg.progress? entry.spec = none := Option.not_isSome_iff_eq_none.1 hnone
      exact h.entered hentry (fun _ _ => lookup_enter) (.inr ⟨hnone, rfl⟩) hknown hunbound

/-! ### Declaring -/

theorem Gathered.report (h : pkg.Gathered file) (node : NodeId) (cause : SemanticFault) :
    (pkg.report file node cause).Gathered file :=
  ⟨h.recorded (some (.make file.file (file.tree.pos node) cause)), h.pending⟩

theorem Gathered.newType (h : pkg.Gathered file) (name : String) : (pkg.newType name).2.Gathered file := by
  refine ⟨h.build ⟨Reaches.after .refl (.named pkg.path name) nofun rfl, fun t ht => ?_⟩, h.pending⟩
  exact shape_pushed_of_knows _ _ ht

/-- A new handle stands for nothing, and nothing has it yet. -/
theorem Gathered.newType_fresh (h : pkg.Gathered file) (name : String) :
    (pkg.newType name).2.types.Knows (pkg.newType name).1 ∧ (pkg.newType name).2.types.Unbound (pkg.newType name).1 ∧
      ∀ id obj t, (pkg.newType name).2.objects.get? id = some obj → obj.typ = some t → t ≠ (pkg.newType name).1 := by
  have hnew : (pkg.newType name).2.types = pkg.types.pushed (.named pkg.path name none []) {} := rfl
  have hindex : (pkg.newType name).1.index = pkg.types.types.size := rfl
  rw [hnew]
  refine ⟨knows_pushed.2 (.inl hindex), ⟨pkg.path, name, [], ?_⟩, ?_⟩
  · rw [shape_pushed, if_pos hindex]
  · rintro id obj t hobj ht rfl
    exact Nat.lt_irrefl _ (h.known id obj _ hobj ht)

theorem Gathered.declare (h : pkg.Gathered file) {role : Role} {spec node : NodeId}
    (hentry : ({ name := node, spec, role } : Entry).Fits file) : (pkg.declare file role spec node).Gathered file := by
  have hrest {pkg : Package} (h : pkg.Gathered file) {typ : Option TypeId}
      (hknown : ∀ t, typ = some t → pkg.types.Knows t)
      (hunbound : ∀ t, typ = some t → pkg.types.Unbound t ∧
        ∀ id obj' t', pkg.objects.get? id = some obj' → obj'.typ = some t' → t' ≠ t) (anonymous : Bool) :
      (if !anonymous && pkg.isTaken (file.tree.literal node) then
          pkg.report file node (.redeclared (file.tree.literal node))
        else (pkg.enter anonymous { name := node, spec, role }
          { name := file.tree.literal node, role, typ, decl := some spec }).schedule
            { name := node, spec, role }).Gathered file := by
    split
    · exact h.report node _
    · exact h.schedule hentry anonymous hknown hunbound
  rw [Package.declare]
  split
  · exact h
  · dsimp only
    by_cases htype : role = .type ∧ file.tree.op spec = .kw .type
    · rw [if_pos htype]
      obtain ⟨hknown, hunbound, hfresh⟩ := h.newType_fresh (file.tree.literal node)
      refine hrest (h.newType _) ?_ ?_ _
      · rintro t ⟨⟩
        exact hknown
      · rintro t ⟨⟩
        exact ⟨hunbound, hfresh⟩
    · rw [if_neg htype]
      refine hrest h ?_ ?_ _
      · rintro t ⟨⟩
      · rintro t ⟨⟩

/-! ### All names -/

/-- A condition that the steps of collecting names preserve: a fault of a name is reported; an imported package is
entered; a name is declared. -/
structure Collects (file : ParsedFile) (I : Package → Prop) : Prop where
  report : ∀ {pkg : Package} {cause : SemanticFault} (node : NodeId), cause.isOfNames = true → I pkg →
    I (pkg.report file node cause)
  enter : ∀ {pkg : Package} {entry : Entry} {obj : Object} (anonymous : Bool), entry.Fits file →
    entry.role = .package → obj.role = .package → obj.typ = none → obj.value = none → I pkg →
    I (pkg.enter anonymous entry obj)
  declare : ∀ {pkg : Package} {role : Role} {spec node : NodeId}, ({ name := node, spec, role } : Entry).Fits file →
    I pkg → I (pkg.declare file role spec node)

namespace Collects

variable {I : Package → Prop} {decl spec : NodeId} (h : Collects file I) (hpkg : I pkg) (hdecl : decl ∈ file.decls)
include h hpkg hdecl

theorem declareImport (hop : file.tree.op decl = .kw .import_) (hspec : spec ∈ file.tree.present decl) :
    I (pkg.declareImport file spec) := by
  rw [Package.declareImport]
  split
  · exact hpkg
  · next pathNode hpath =>
      split
      · exact hpkg
      · dsimp only
        have hentry : ({ name := (file.tree.part? spec 0).getD pathNode, spec, role := .package } : Entry).Fits file := by
          refine .import_ hdecl hop hspec ?_
          cases hname : file.tree.part? spec 0 with
          | none => exact Tree.mem_present_of_part? hpath
          | some name => exact Tree.mem_present_of_part? hname
        split
        · exact h.report _ rfl hpkg
        · exact h.enter _ hentry rfl rfl rfl rfl hpkg

theorem declareType (hop : file.tree.op decl = .kw .type) (hspec : spec ∈ file.tree.present decl) :
    I (pkg.declareType file spec) := by
  rw [Package.declareType]
  split
  · exact hpkg
  · next name hname =>
      split
      · exact h.declare (.type hdecl hop hspec hname) hpkg
      · exact h.report _ rfl hpkg
      · exact hpkg

theorem declareValues {role : Role}
    (hop : file.tree.op decl = .kw .const ∧ role = .constant ∨ file.tree.op decl = .kw .var ∧ role = .variable)
    (hspec : spec ∈ file.tree.present decl) : I (pkg.declareValues file role spec) := by
  rw [Package.declareValues]
  split
  · exact hpkg
  · split
    · exact hpkg
    · next names hnames =>
        refine List.foldlRecOn _ _ hpkg fun pkg hpkg name hname => ?_
        exact h.declare (.value hdecl hop hspec hnames hname) hpkg

theorem declareFunction (hop : file.tree.op decl = .kw .func) (hfree : isMethod file.tree decl = false) :
    I (pkg.declareFunction file decl) := by
  rw [Package.declareFunction]
  split
  · exact hpkg
  · next name hname =>
      split
      · exact h.declare (.function hdecl hop hfree hname) hpkg
      · exact h.report _ rfl hpkg
      · exact hpkg

theorem collect : I (pkg.collect file decl) := by
  have hsound {x : NodeId} (hx : x ∈ sound file.tree decl) : x ∈ file.tree.present decl := (List.mem_filter.1 hx).1
  rw [Package.collect]
  split
  · exact hpkg
  · next hskip =>
      have hfree : isMethod file.tree decl = false := by simp_all
      split
      · next hop => exact List.foldlRecOn _ _ hpkg fun pkg hpkg x hx => h.declareImport hpkg hdecl hop (hsound hx)
      · next hop =>
          exact List.foldlRecOn _ _ hpkg fun pkg hpkg x hx => h.declareValues hpkg hdecl (.inl ⟨hop, rfl⟩) (hsound hx)
      · next hop =>
          exact List.foldlRecOn _ _ hpkg fun pkg hpkg x hx => h.declareValues hpkg hdecl (.inr ⟨hop, rfl⟩) (hsound hx)
      · next hop => exact List.foldlRecOn _ _ hpkg fun pkg hpkg x hx => h.declareType hpkg hdecl hop (hsound hx)
      · next hop => exact h.declareFunction hpkg hdecl hop hfree
      · exact hpkg

omit hpkg hdecl in
theorem collected {decls : List NodeId} (hreset : I (pkg.reset (pathOf file.tree decls)))
    (hdecls : ∀ decl ∈ decls, decl ∈ file.decls) : I (pkg.collected file decls) :=
  List.foldlRecOn decls (Package.collect file) hreset fun _ hpkg decl hdecl => h.collect hpkg (hdecls decl hdecl)

end Collects

theorem collects_gathered : Collects file (Gathered file) where
  report node _ h := h.report node _
  enter anonymous hentry _ _ htyp _ h :=
    h.enter hentry anonymous (fun t ht => by cases htyp.symm.trans ht) fun t ht => by cases htyp.symm.trans ht
  declare hentry h := h.declare hentry

/-- Collecting the names of some declarations of a file. -/
theorem gathered_collected (h : pkg.Ready) (hforest : file.tree.Forest) {decls : List NodeId}
    (hdecls : ∀ decl ∈ decls, decl ∈ file.decls) : (pkg.collected file decls).Gathered file :=
  collects_gathered.collected (gathered_reset h hforest _) hdecls

end Package

end GoSource
