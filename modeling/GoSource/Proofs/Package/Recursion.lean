import GoSource.Proofs.Package.Layered

/-!
# Where recursion comes from

A type is found to be recursive only if the declarations of the file refer to one another in a circle on which a type
is needed in full, although not all such types contain themselves.

* **`ResolveM.checkFinite_keeps`**: when all declarations of a layered file have ended, their types can be completed.
* **`Package.Fresh`**: what is known about the names that have been collected, before anything is resolved.
* **`recursion_on_circle`**: the circle behind a type that is found to be recursive.
-/

namespace GoSource

open TypeTable

variable {file : ParsedFile} {owns : NodeId → TypeId → Prop} {P : Package → Prop} {pkg : Package} {entry : Entry}
  {obj : Object}

/-! ### The passes -/

theorem Package.Ended.done {spec : NodeId} (h : pkg.Ended) (hspec : (pkg.progress? spec).isSome) :
    pkg.progress? spec = some .done := by
  obtain ⟨progress, hprogress⟩ := Option.isSome_iff_exists.1 hspec
  cases progress with
  | pending => exact absurd (.inl hprogress) (h spec)
  | resolving => exact absurd (.inr hprogress) (h spec)
  | done => exact hprogress

/-- When all declarations have ended, a type that is valid can be completed. -/
theorem Package.Tame.ready_of_ended (h : pkg.Tame file owns) (hended : pkg.Ended) (hentry : entry.Fits file)
    (hrole : entry.role = .type) (hobj : pkg.objects.get? entry.name = some obj) {t : TypeId} (ht : obj.typ = some t)
    (hvalid : pkg.types.isInvalid t = false) : pkg.types.Ready t := by
  have haccounted := h.accounted entry hentry hrole obj hobj
  have hdone := hended.done haccounted.scheduled
  have htraced : pkg.Traced file owns entry.spec t := by
    obtain howns | ⟨-, htraced⟩ := haccounted.typed t ht
    · intro c hc
      obtain rfl := hc.eq_of_declared (h.held entry.spec t howns).declared
      exact .inr ⟨entry.spec, howns, .inr hdone, .refl⟩
    · exact htraced
  refine h.ready (h.known _ obj t hobj ht) htraced hvalid fun spec c howns hbegun _ => ?_
  exact (h.held spec c howns).bound (hbegun.resolve_left fun hresolving => hended spec (.inr hresolving))

namespace ResolveM

/-- A fault that is recorded instead of being passed on. -/
theorem isolate_keeps {a : ResolveM Unit} (h : Keeps file owns P a fun _ _ => True) :
    Keeps file owns P (isolate a) fun _ _ => True := by
  intro pkg htame hpkg
  have hleaves := h pkg htame hpkg
  have hattempt : attempt a file pkg = (.ok (a file pkg).1, (a file pkg).2) := rfl
  rw [isolate, run_bind hattempt]
  rcases hrun : a file pkg with ⟨(d | fault) | _, pkg₁⟩
  · rw [hrun] at hleaves
    obtain ⟨htame₁, honward, hd⟩ := hleaves
    show Leaves file owns pkg _ (record d file pkg₁)
    rw [Meanings.record_eq]
    refine ⟨htame₁.recorded ?_, honward.trans (.of_tasks_eq ⟨rfl, rfl, rfl, rfl, .refl⟩ rfl), trivial⟩
    rintro d' ⟨⟩
    exact hd
  · rw [hrun] at hleaves
    exact hleaves
  · rw [hrun] at hleaves
    exact hleaves

/-- Looking for types that contain themselves, when all declarations have ended. -/
theorem checkFinite_keeps (hentry : entry.Fits file) :
    Keeps file owns Package.Ended (checkFinite entry) fun _ _ => True := by
  refine .ite (fun hrole => .get fun q _ _ => ?_) fun _ => .pure fun _ _ _ => trivial
  cases hobj : q.objects.get? entry.name with
  | none => exact .pure fun _ _ _ => trivial
  | some obj =>
      dsimp only
      cases ht : obj.typ with
      | none => exact .pure fun _ _ _ => trivial
      | some t =>
          rintro pkg htame ⟨hended, rfl⟩
          dsimp only
          rw [ResolveM.bind_run, containsItself_eq]
          by_cases hskip : ((pkg.types.underlying? t).isNone || pkg.types.isInvalid t) = true
          · rw [if_pos hskip]
            exact ⟨htame, .refl pkg, trivial⟩
          · have hvalid : pkg.types.isInvalid t = false := by
              rw [Bool.or_eq_true, not_or] at hskip
              simpa using hskip.2
            have hknown := htame.known _ obj t hobj ht
            have hready := htame.ready_of_ended hended hentry hrole hobj ht hvalid
            have hcomplete : (completed t pkg.types).1.isComplete = true :=
              hready.completed htame.tidy.toFaithful htame.tidy.atRest hknown
            have hbuilds : pkg.types.Builds (completed t pkg.types).2 := by
              refine ⟨Reaches.after .refl (.complete t) ?_ rfl, fun u _ => (leads_complete t pkg.types).shape_eq u⟩
              simpa [Operation.handles] using hknown
            rw [if_neg hskip]
            dsimp only
            rw [hcomplete]
            exact ⟨htame.build hbuilds (htame.tidy.complete t), .of_tasks_eq ⟨rfl, rfl, rfl, rfl, hbuilds.reaches⟩ rfl,
              trivial⟩

/-- All passes over a layered file. -/
theorem resolveAllWith_clean {m : Meanings} {methods : List NodeId} (hlayered : file.Layered)
    (hlawful : m.Lawful file) (hm : m.Careful file owns) (htame : pkg.Tame file owns)
    (hidle : ∀ spec, pkg.progress? spec ≠ some .resolving)
    (hmethods : ∀ decl ∈ methods, decl ∈ file.decls ∧ Package.isMethod file.tree decl = true) :
    (resolveAllWith m methods file pkg).2.Clean := by
  have hleads (pkg : Package) (hidle : ∀ spec, pkg.progress? spec ≠ some .resolving) (x : NodeId) : pkg.Leads file x :=
    fun entry _ _ hresolving => absurd hresolving (hidle entry.spec)
  have hfits := htame.listed
  have hpasses : Keeps file owns
      (fun q => (∀ spec, q.progress? spec ≠ some .resolving) ∧ q.tasks.map Task.entry = pkg.tasks.map Task.entry)
      ((pkg.tasks.map Task.entry).forM m.resolve >>= fun _ =>
        methods.forM (fun decl => isolate (m.method decl)) >>= fun _ => (pkg.tasks.map Task.entry).forM checkFinite)
      fun _ _ => True := by
    have hstable : Stable file owns fun q =>
        (∀ spec, q.progress? spec ≠ some .resolving) ∧ q.tasks.map Task.entry = pkg.tasks.map Task.entry :=
      stable_idle.and fun _ _ _ honward h => honward.steady.entries_eq.trans h
    have hresolve := Keeps.forM (f := m.resolve) (R := fun entry q => q.progress? entry.spec ≠ some .pending)
      (pkg.tasks.map Task.entry) hstable (fun entry => stable_progress entry.spec) fun entry hentry =>
        (Meanings.resolve_keeps hm (hfits entry hentry) hlayered hlawful).pre fun q _ hq => hleads q hq.1 entry.spec
    have hended : Stable file owns Package.Ended := stable_ended
    refine hresolve.bind hstable fun _ => Keeps.pre (P := Package.Ended) ?_ ?_
    · have hmethod := Keeps.forM (f := fun decl => isolate (m.method decl)) (R := fun _ _ => True) methods hended
        (fun _ => stable_true) fun decl hdecl =>
          isolate_keeps (Meanings.method_keeps hm (hmethods decl hdecl).1 (hmethods decl hdecl).2)
      refine hmethod.bind hended fun _ => ?_
      have hcheck := Keeps.forM (f := checkFinite) (R := fun _ _ => True) (pkg.tasks.map Task.entry) hended
        (fun _ => stable_true) fun entry hentry =>
          checkFinite_keeps (hfits entry hentry)
      exact (hcheck.pre fun _ _ h => h.1).mono fun _ _ _ _ => trivial
    · -- No declaration is pending any more, and none is under way.
      rintro q - ⟨⟨hidle, hentries⟩, hnot⟩ spec (hpending | hresolving)
      · obtain ⟨task, hfind, -⟩ := Option.map_eq_some_iff.1 hpending
        have hspec : task.entry.spec = spec := by simpa using List.find?_some hfind
        have hmem : task.entry ∈ pkg.tasks.map Task.entry := by
          rw [← hentries]
          exact List.mem_map_of_mem (List.mem_of_find?_eq_some hfind)
        exact hnot task.entry hmem (hspec ▸ hpending)
      · exact hidle spec hresolving
  have hleaves := hpasses pkg htame ⟨hidle, rfl⟩
  have hrun : resolveAllWith m methods file pkg =
      ((pkg.tasks.map Task.entry).forM m.resolve >>= fun _ =>
        methods.forM (fun decl => isolate (m.method decl)) >>= fun _ =>
          (pkg.tasks.map Task.entry).forM checkFinite) file pkg := rfl
  rw [hrun]
  exact Leaves.clean hleaves

end ResolveM

/-! ### Names that have been collected -/

namespace Package

/-- What is known about a name that has been collected: it has a type if it is that of a declared type. -/
structure Noted (file : ParsedFile) (pkg : Package) (entry : Entry) (obj : Object) : Prop where
  role_eq : obj.role = entry.role
  scheduled : entry.role = .type → (pkg.progress? entry.spec).isSome
  typed : entry.role = .type → (obj.typ.isSome ↔ file.tree.op entry.spec = .kw .type)

theorem Noted.later {pkg' : Package} (h : pkg.Noted file entry obj)
    (hprogress : ∀ spec, (pkg.progress? spec).isSome → (pkg'.progress? spec).isSome) : pkg'.Noted file entry obj :=
  ⟨h.role_eq, fun hrole => hprogress _ (h.scheduled hrole), h.typed⟩

/-- A package whose names have been collected, and in which nothing is resolved yet. -/
structure Fresh (file : ParsedFile) (pkg : Package) : Prop extends pkg.Gathered file where
  tidy : pkg.types.Tidy
  clean : pkg.Clean
  enclosed : pkg.Enclosed
  noted : ∀ entry : Entry, entry.Fits file → ∀ obj, pkg.objects.get? entry.name = some obj → pkg.Noted file entry obj

namespace Fresh

theorem report (h : pkg.Fresh file) (node : NodeId) {cause : SemanticFault}
    (hcause : cause.isOfNames = true) : (pkg.report file node cause).Fresh file := by
  refine ⟨h.toGathered.report node cause, h.tidy, fun d hd => ?_, h.enclosed,
    fun e he obj hobj => (h.noted e he obj hobj).later fun _ => id⟩
  obtain hd | rfl := Array.mem_push.1 hd
  · exact h.clean d hd
  · show cause.isRecursive = false
    cases cause with
    | recursiveType name => cases hcause
    | _ => rfl

theorem newType (h : pkg.Fresh file) (name : String) : (pkg.newType name).2.Fresh file := by
  have hgrows := h.regular.toSound.newNamed pkg.path name
  exact ⟨h.toGathered.newType name, h.tidy.newNamed pkg.path name, h.clean,
    h.enclosed.later h.toOrderly.ready rfl hgrows.toExtends,
    fun e he obj hobj => (h.noted e he obj hobj).later fun _ => id⟩

/-- A name is entered that is noted. -/
theorem entered (h : pkg.Fresh file) (hentry : entry.Fits file) (obj : Object) {pkg' : Package}
    (hgathered : pkg'.Gathered file)
    (htypes : pkg'.types = pkg.types) (houter : pkg'.outer = pkg.outer) (hfaults : pkg'.faults = pkg.faults)
    (hobjects : pkg'.objects = pkg.objects.insert entry.name obj)
    (hprogress : ∀ spec, (pkg.progress? spec).isSome → (pkg'.progress? spec).isSome)
    (hnoted : pkg'.Noted file entry obj) : pkg'.Fresh file := by
  refine ⟨hgathered, by rw [htypes]; exact h.tidy, fun d hd => h.clean d (hfaults ▸ hd), ?_, ?_⟩
  · exact fun obj hobj hrole => by rw [htypes]; exact h.enclosed obj (houter ▸ hobj) hrole
  · intro e he obj' hobj'
    rw [hobjects] at hobj'
    by_cases hname : e.name = entry.name
    · obtain rfl := he.eq_of_name h.forest hentry hname
      rw [NodeMap.get?_insert_self] at hobj'
      cases hobj'
      exact hnoted
    · rw [NodeMap.get?_insert_of_ne _ _ hname] at hobj'
      exact (h.noted e he obj' hobj').later hprogress

theorem schedule_eq (pkg : Package) (entry : Entry) :
    pkg.schedule entry = { pkg with tasks := (pkg.schedule entry).tasks } := by
  rw [schedule]
  split
  · rfl
  · rfl

/-- A scheduled declaration is pending, and the others are as they were. -/
theorem isSome_progress?_schedule (pkg : Package) (entry : Entry) :
    ((pkg.schedule entry).progress? entry.spec).isSome ∧
      ∀ spec, (pkg.progress? spec).isSome → ((pkg.schedule entry).progress? spec).isSome := by
  rw [schedule]
  split
  · next hsome => exact ⟨hsome, fun _ => id⟩
  · refine ⟨by simp [progress?], fun spec hspec => ?_⟩
    by_cases heq : spec = entry.spec
    · rw [heq]
      simp [progress?]
    · rw [progress?_append_of_ne heq]
      exact hspec

theorem declare (h : pkg.Fresh file) {role : Role} {spec node : NodeId}
    (hentry : ({ name := node, spec, role } : Entry).Fits file) : (pkg.declare file role spec node).Fresh file := by
  have hrest {pkg : Package} (h : pkg.Fresh file) {typ : Option TypeId} {anonymous : Bool}
      (htyped : role = .type → (typ.isSome ↔ file.tree.op spec = .kw .type))
      (hgathered : (if !anonymous && pkg.isTaken (file.tree.literal node) then
          pkg.report file node (.redeclared (file.tree.literal node))
        else (pkg.enter anonymous { name := node, spec, role }
          { name := file.tree.literal node, role, typ, decl := some spec }).schedule
            { name := node, spec, role }).Gathered file) :
      (if !anonymous && pkg.isTaken (file.tree.literal node) then
          pkg.report file node (.redeclared (file.tree.literal node))
        else (pkg.enter anonymous { name := node, spec, role }
          { name := file.tree.literal node, role, typ, decl := some spec }).schedule
            { name := node, spec, role }).Fresh file := by
    by_cases htaken : (!anonymous && pkg.isTaken (file.tree.literal node)) = true
    · rw [if_pos htaken]
      exact h.report node rfl
    · rw [if_neg htaken] at hgathered ⊢
      obtain ⟨hself, hothers⟩ := isSome_progress?_schedule
        (pkg.enter anonymous { name := node, spec, role }
          { name := file.tree.literal node, role, typ, decl := some spec })
        { name := node, spec, role }
      refine h.entered hentry { name := file.tree.literal node, role, typ, decl := some spec } hgathered ?_ ?_ ?_ ?_
        hothers ⟨rfl, fun _ => hself, htyped⟩
      · rw [schedule_eq]
        rfl
      · rw [schedule_eq]
        rfl
      · rw [schedule_eq]
        rfl
      · rw [schedule_eq]
        rfl
  have hgathered := h.toGathered.declare hentry
  by_cases hbad : file.tree.isBad node = true
  · rw [Package.declare, if_pos hbad]
    exact h
  · rw [Package.declare, if_neg hbad] at hgathered ⊢
    dsimp only at hgathered ⊢
    by_cases htype : role = .type ∧ file.tree.op spec = .kw .type
    · rw [if_pos htype] at hgathered ⊢
      exact hrest (h.newType _) (fun _ => ⟨fun _ => htype.2, fun _ => rfl⟩) hgathered
    · rw [if_neg htype] at hgathered ⊢
      exact hrest h (fun hrole => ⟨fun hsome => (by cases hsome), fun hop => absurd ⟨hrole, hop⟩ htype⟩) hgathered

end Fresh

theorem collects_fresh : Collects file (Fresh file) where
  report node hcause h := h.report node hcause
  enter {pkg entry obj} anonymous hentry hrole hobj htyp hvalue h := by
    refine h.entered hentry obj (collects_gathered.enter anonymous hentry hrole hobj htyp hvalue h.toGathered) rfl rfl rfl rfl
      (fun _ => id) ⟨hobj.trans hrole.symm, fun htype => ?_, fun htype => ?_⟩
    · cases hrole.symm.trans htype
    · cases hrole.symm.trans htype
  declare hentry h := h.declare hentry

/-- The declaration `spec` declares the type `t`. -/
def Owns (file : ParsedFile) (pkg : Package) (spec : NodeId) (t : TypeId) : Prop :=
  ∃ (entry : Entry) (obj : Object), entry.Fits file ∧ entry.role = .type ∧ entry.spec = spec ∧
    pkg.objects.get? entry.name = some obj ∧ obj.typ = some t

/-- Before anything is resolved, all declarations are pending. -/
theorem Gathered.pending_of_isSome {spec : NodeId} (h : pkg.Gathered file) (hspec : (pkg.progress? spec).isSome) :
    pkg.progress? spec = some .pending := by
  obtain ⟨progress, hprogress⟩ := Option.isSome_iff_exists.1 hspec
  obtain ⟨task, hfind, rfl⟩ := Option.map_eq_some_iff.1 hprogress
  rw [hprogress, h.pending task (List.mem_of_find?_eq_some hfind)]

/-- Nothing is recursive before anything is resolved. -/
theorem Fresh.tame (h : pkg.Fresh file) (hnames : ∀ name, pkg.declared? name = file.entry? name) :
    pkg.Tame file (pkg.Owns file) := by
  have hpending {entry : Entry} {obj : Object} (hentry : entry.Fits file) (hrole : entry.role = .type)
      (hobj : pkg.objects.get? entry.name = some obj) : pkg.progress? entry.spec = some .pending :=
    h.toGathered.pending_of_isSome ((h.noted entry hentry obj hobj).scheduled hrole)
  have hawaits {entry : Entry} {obj : Object} (hentry : entry.Fits file) (hrole : entry.role = .type)
      (hobj : pkg.objects.get? entry.name = some obj) : pkg.Awaits file entry :=
    ⟨hentry, hrole, .inl (hpending hentry hrole hobj)⟩
  refine
    { toOrderly := h.toOrderly
      tidy := h.tidy
      clean := h.clean
      names := hnames
      enclosed := h.enclosed
      roles := fun entry hentry obj hobj => (h.noted entry hentry obj hobj).role_eq
      accounted := ?accounted
      held := ?held
      one_owner := ?one_owner
      one_type := ?one_type }
  case accounted =>
    intro entry hentry hrole obj hobj
    have hnoted := h.noted entry hentry obj hobj
    refine ⟨hnoted.scheduled hrole, fun hnone => ⟨fun hop => ?_, ?_⟩, fun t ht => ?_⟩
    · have hsome := (hnoted.typed hrole).2 hop
      rw [hnone] at hsome
      cases hsome
    · rw [hpending hentry hrole hobj]
      simp
    · exact .inl ⟨entry, obj, hentry, hrole, rfl, hobj, ht⟩
  case held =>
    rintro spec t ⟨entry, obj, hentry, hrole, rfl, hobj, ht⟩
    -- The type is awaited, and so it stands for nothing yet.
    obtain ⟨obj', hobj', hunbound⟩ := h.awaited entry (hawaits hentry hrole hobj)
    cases hobj.symm.trans hobj'
    obtain ⟨pkgPath, name, ms, hs⟩ := hunbound t ht
    have hnone : pkg.types.underlying? t = none := by rw [underlying?, hs]
    refine ⟨⟨entry, hentry, hrole, rfl⟩, ?_, by rw [hs]; rfl, fun hdone => ?_, fun u hu => ?_⟩
    · exact ((h.noted entry hentry obj hobj).typed hrole).1 (by rw [ht]; rfl)
    · cases (hpending hentry hrole hobj).symm.trans hdone
    · cases hnone.symm.trans hu
  case one_owner =>
    rintro spec spec' t ⟨entry, obj, hentry, hrole, rfl, hobj, ht⟩ ⟨entry', obj', hentry', hrole', rfl, hobj', ht'⟩
    rw [h.apart entry entry' (hawaits hentry hrole hobj) (hawaits hentry' hrole' hobj') obj obj' t hobj hobj' ht ht']
  case one_type =>
    rintro spec t t' ⟨entry, obj, hentry, hrole, rfl, hobj, ht⟩ ⟨entry', obj', hentry', hrole', hspec, hobj', ht'⟩
    obtain rfl := hentry.eq_of_spec h.forest hentry' hrole hspec.symm
    cases hobj.symm.trans hobj'
    exact Option.some.inj (ht.symm.trans ht')

end Package

/-! ### The universe -/

/-- The shapes of the predeclared types: none is an array, none is built of the invalid type, and what a declared one
stands for comes before all declared ones. -/
theorem universe_shapes (target : Target) :
    let pkg := Package.new (TypeTable.new target)
    (∀ i < pkg.types.types.size, (pkg.types.shape ⟨i⟩).kind ≠ .array ∧
        (∀ part ∈ (pkg.types.shape ⟨i⟩).components, pkg.types.shape part ≠ .basic .invalid) ∧
        ((pkg.types.shape ⟨i⟩).isDeclared = true →
          ∃ u ∈ pkg.types.underlying? ⟨i⟩, ∀ j ≤ u.index, (pkg.types.shape ⟨j⟩).isDeclared = false)) ∧
      ∀ obj ∈ pkg.outer, obj.role = .type → obj.typ.isSome := by
  cases target <;> decide +kernel

/-- What a type mentions was made before it, or is the type itself. -/
theorem TypeTable.Mentions.index_le {tt : TypeTable} {t c : TypeId} (h : tt.Mentions t c) (hsound : tt.Sound) :
    c.index ≤ t.index := by
  induction h with
  | self => exact Nat.le_refl _
  | part hpart _ ih => exact Nat.le_trans ih (Nat.le_of_lt (hsound.ordered _ _ hpart))

theorem tidy_universe (target : Target) : (Package.new (TypeTable.new target)).types.Tidy := by
  obtain ⟨any, error, functions, -, hreaches, -⟩ := new_run (sound_new target)
  have hadvances := hreaches.advances (faithful_new target)
  have hshapes := (universe_shapes target).1
  have hunknown {t : TypeId} (ht : ¬ (Package.new (TypeTable.new target)).types.Knows t) :
      (Package.new (TypeTable.new target)).types.shape t = .basic .invalid := by
    rw [shape, info_of_not_knows ht]
  refine ⟨hadvances.faithful, hadvances.atRest (atRest_new target), fun t => ?_, fun {t e n} hs => ?_⟩
  · by_cases ht : (Package.new (TypeTable.new target)).types.Knows t
    · exact (hshapes t.index ht).2.1
    · rw [hunknown ht]
      simp [Shape.components]
  · have ht : (Package.new (TypeTable.new target)).types.Knows t := knows_of_shape_ne (by rw [hs]; simp)
    refine absurd ?_ (hshapes t.index ht).1
    show ((Package.new (TypeTable.new target)).types.shape t).kind = _
    rw [hs]
    rfl

theorem enclosed_universe (target : Target) : (Package.new (TypeTable.new target)).Enclosed := by
  obtain ⟨hshapes, htyped⟩ := universe_shapes target
  intro obj hobj hrole
  obtain ⟨t, ht⟩ := Option.isSome_iff_exists.1 (htyped obj hobj hrole)
  refine ⟨t, ht, fun c hc => ?_⟩
  obtain ⟨u, hu, hbefore⟩ := (hshapes c.index hc.knows).2.2 hc.declared
  refine ⟨u, hu, fun d hd => ?_⟩
  have hnot : ((Package.new (TypeTable.new target)).types.shape d).isDeclared = false :=
    hbefore d.index (hd.index_le (tidy_universe target).toSound)
  cases hnot.symm.trans hd.declared

/-! ### Files -/

/-- In a layered file no type is found to be recursive. -/
theorem clean_of_layered (hready : pkg.Ready) (htidy : pkg.types.Tidy) (henclosed : pkg.Enclosed)
    (hfile : file.Parsed) (hlayered : file.Layered) : (pkg.resolveFile file).2.Clean := by
  have hreset : (pkg.reset (Package.pathOf file.tree file.decls)).Fresh file := by
    refine ⟨Package.gathered_reset hready hfile.forest _, htidy, fun d hd => ?_, henclosed, fun entry _ obj hobj => ?_⟩
    · exact absurd hd (Array.not_mem_empty d)
    · cases hobj
  have hfresh := Package.collects_fresh.collected hreset fun decl hdecl => hdecl
  have htame := hfresh.tame fun name => Package.declared?_collected pkg file.decls
  have hidle (spec : NodeId) : (pkg.collected file file.decls).progress? spec ≠ some .resolving := by
    intro hresolving
    cases (hfresh.toGathered.pending_of_isSome (by rw [hresolving]; rfl)).symm.trans hresolving
  obtain ⟨hlawful, hcareful⟩ := careful_unfold hlayered (pkg.depth file file.decls)
  -- Resolution does what its recursion does when it is unfolded often enough.
  obtain ⟨hsame, -⟩ := resolveAll_same hfile.forest Meanings.silent (pkg.depth file file.decls)
    (file.decls.filter (Package.isMethod file.tree)) (pkg.collected file file.decls) (Nat.le_refl _)
  show (ResolveM.resolveAll (file.decls.filter (Package.isMethod file.tree)) file
    (pkg.collected file file.decls)).2.Clean
  rw [hsame]
  exact ResolveM.resolveAllWith_clean hlayered hlawful hcareful htame hidle fun decl hdecl => List.mem_filter.1 hdecl

/-- A type is found to be recursive only if there is a circle of references with a step of containment for which a type
has to be known in full: from an alias to what it is declared with, from a type to another one that it is declared to
be, from an array to its element, or from an interface to one that it embeds. -/
theorem recursion_on_circle (name text : String) (target : Target) (d : Diagnostic SemanticFault) (typ : String)
    (hd : d ∈ ((Package.new (TypeTable.new target)).resolveFile (ParsedFile.ofString name text)).2.faults)
    (hcause : d.cause = .recursiveType typ) :
    ∃ x y, (ParsedFile.ofString name text).Needs x y ∧ (ParsedFile.ofString name text).Contains x y ∧
      Relation.ReflTransGen (ParsedFile.ofString name text).Refers y x := by
  by_contra hnone
  have hlayered : (ParsedFile.ofString name text).Layered := fun x y hneeds hrefers =>
    hnone ⟨x, y, hneeds, hneeds.contains, hrefers⟩
  have hready : (Package.new (TypeTable.new target)).Ready := Package.Session.ready (.new ⟨target, .refl⟩)
  have hclean := clean_of_layered hready (tidy_universe target) (enclosed_universe target)
    (ParsedFile.parsed_ofString name text) hlayered d hd
  rw [hcause] at hclean
  cases hclean

/-- A type that stands for a slice of itself, by way of another one. -/
theorem recursion_on_circle_slice :
    let file := ParsedFile.ofString "a.go" "package p\ntype B []A\ntype A B\n"
    ∃ d ∈ ((Package.new (TypeTable.new .amd64)).resolveFile file).2.faults, d.cause = .recursiveType "A" ∧
      ∃ x y, file.Needs x y ∧ file.Contains x y ∧ Relation.ReflTransGen file.Refers y x := by
  intro file
  have hfaults : ((Package.new (TypeTable.new .amd64)).resolveFile file).2.faults.map (·.cause) =
      #[.recursiveType "A"] := by
    decide +kernel
  have hmem : SemanticFault.recursiveType "A" ∈
      ((Package.new (TypeTable.new .amd64)).resolveFile file).2.faults.map (·.cause) := by
    rw [hfaults]
    exact Array.mem_singleton.2 rfl
  obtain ⟨d, hd, hcause⟩ := Array.mem_map.1 hmem
  exact ⟨d, hd, hcause, recursion_on_circle _ _ .amd64 d "A" hd hcause⟩

end GoSource
