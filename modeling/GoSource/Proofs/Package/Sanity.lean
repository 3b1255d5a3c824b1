import GoSource.Proofs.Package.Given
import GoSource.Proofs.Package.Grounds
import GoSource.Proofs.Package.Recursion

/-!
# Resolved packages are sane

The names of a file are collected into a sane package, and each pass of resolution leaves it so.

* **`ResolveM.resolveAllWith_outcome`**: the passes, when all declarations are pending.
* **`Package.Blank`**: what is known about the names that have been collected, before anything is resolved.
* **`resolveDecls_sane`**: the package in which the declarations of a file have been resolved.
-/

namespace GoSource

open TypeTable

variable {file : ParsedFile} {start : TypeTable} {own : List NodeId} {P : Package → Prop} {pkg pkg' : Package}
  {entry : Entry} {obj : Object}

/-! ### Methods -/

namespace Meanings

theorem receiverBase_yields (recv : NodeId) : Yields file start own P (receiverBase recv) fun _ _ => True := by
  have hname (base : NodeId) :
      Yields file start own P
        (do
          if file.tree.op base ≠ .lit .ident then
            ResolveM.fail base (.invalidReceiver (file.tree.render base))
          return base)
        fun _ _ => True :=
    .check rfl fun _ => .pure fun _ _ _ => trivial
  refine .tree ?_
  split
  · exact .part fun typ _ => .ite (fun _ => .part fun base _ => hname base) fun _ => hname typ
  · exact .fail rfl
  · exact .fail rfl

theorem receiverType_yields (base : NodeId) (name : String) :
    Yields file start own P (receiverType base name) fun t pkg => pkg.types.Knows t := by
  refine .get fun q hq _ => ?_
  cases q.declared? name with
  | none => exact .ite (fun _ => .fail rfl) fun _ => .fail rfl
  | some entry =>
      dsimp only
      split
      · next t ht =>
          refine .pure ?_
          rintro pkg hsane ⟨-, rfl⟩
          have hdenoted := (Option.filter_eq_some_iff.1 ht).1
          split at hdenoted
          · obtain ⟨obj, hobj, htyp⟩ := Option.bind_eq_some_iff.1 hdenoted
            exact hsane.known _ obj t hobj htyp
          · cases hdenoted
      · exact .fail rfl

variable {decl name : NodeId} {t signature : TypeId}

/-- A function is added to its receiver, or refused. -/
theorem attach_yields {f : Method} {obj : Object} (hdecl : decl ∈ file.decls)
    (hmethod : Package.isMethod file.tree decl = true) (hname : file.tree.part? decl 1 = some name)
    (hobj : obj.typ = some f.typ) (hrole : obj.role = .function) :
    Yields file start [] (fun pkg => pkg.Ended ∧ pkg.types.Knows t ∧ pkg.types.Knows f.typ)
      (do
        ResolveM.buildAt name (TypeTable.addMethod t f)
        modify fun pkg => { pkg with objects := pkg.objects.insert name obj }) fun _ _ => True := by
  rintro pkg hsane ⟨hended, ht, hf⟩
  have hreaches : Reaches pkg.types (TypeTable.addMethod t f pkg.types).2 := by
    refine Reaches.after .refl (.method t f) ?_ rfl
    simpa [Operation.handles] using ⟨ht, hf⟩
  rw [ResolveM.bind_run, ResolveM.buildAt, ResolveM.bind_run, Does.onTypes_eq]
  dsimp only
  cases houtcome : (TypeTable.addMethod t f pkg.types).1 with
  | ok x =>
      obtain ⟨hsane', -⟩ := hsane.method hdecl hmethod hname hended.not_awaits hreaches
        (fun u _ => underlying?_addMethod t f pkg.types u)
        (fun u hu => by
          cases hobj.symm.trans hu
          exact (hreaches.grows hsane.sound).knows hf) hrole
      have hsame (e : Entry) (he : e.Fits file) : (pkg.objects.insert name obj).get? e.name = pkg.objects.get? e.name :=
        NodeMap.get?_insert_of_ne _ _ (he.name_ne hsane.forest hdecl hmethod hname)
      exact ⟨hsane', ⟨.of_tasks_eq ⟨rfl, rfl, rfl, rfl, hreaches⟩ rfl,
        fun e he o ho => ⟨o, (hsame e he).trans ho, .refl o⟩, fun e he _ _ => hsame e he, fun hflawed => hflawed,
        List.Subset.refl _⟩, trivial⟩
  | error fault =>
      have hsame : (TypeTable.addMethod t f pkg.types).2 = pkg.types := by
        obtain ⟨outcome, hrun⟩ | ⟨_, _, _, _, -, hrun⟩ := addMethod_cases t f pkg.types
        · rw [hrun]
        · rw [hrun] at houtcome
          cases houtcome
      rw [hsame]
      cases fault with
      | arrayTooLarge | duplicateMethod | notAnInterface | incompleteEmbedded =>
          exact ⟨hsane, .refl pkg, SemanticFault.fair_of_none rfl⟩
      | _ => exact hsane.fair

theorem addMethod_yields (hdecl : decl ∈ file.decls) (hmethod : Package.isMethod file.tree decl = true)
    (hname : file.tree.part? decl 1 = some name) (receiver : String) :
    Yields file start [] (fun pkg => pkg.Ended ∧ pkg.types.Knows t ∧ pkg.types.Knows signature)
      (addMethod decl name receiver t signature) fun _ _ => True := by
  refine .tree (.get fun q _ _ => .check rfl fun _ => ?_)
  rintro pkg hsane ⟨hpkg, -⟩
  have honto : Onto file [] pkg { pkg with methods := (receiver, file.tree.literal name) :: pkg.methods } :=
    .of_objects_eq (.of_tasks_eq ⟨rfl, rfl, rfl, rfl, .refl⟩ rfl) rfl (fun hflawed => hflawed)
      (List.subset_cons_self _ _)
  refine Outcome.after honto ?_
  dsimp only
  rw [ResolveM.run_bind (modify_run _ file pkg), ResolveM.run_bind (ResolveM.get_run file _)]
  exact attach_yields (f := { name := file.tree.literal name, pkgPath := _, typ := signature }) hdecl hmethod hname rfl
    rfl _ (hsane.note _) ⟨durable_ended hsane.toOrderly honto hpkg.1, hpkg.2⟩

/-- A method declaration. -/
theorem method_yields {m : Meanings} (hm : m.Honest file start) (hdecl : decl ∈ file.decls)
    (hmethod : Package.isMethod file.tree decl = true) :
    Yields file start [] Package.Ended (m.method decl) fun _ _ => True := by
  refine .part fun recv _ => .part fun name hname => .part fun sig _ => .tree (.check rfl fun _ => ?_)
  refine (receiverBase_yields recv).bind durable_ended fun base => ?_
  refine Yields.pre (P := Package.Ended) ?_ fun _ _ h => h.1
  refine (receiverType_yields base _).bind durable_ended fun t => .types fun tt => ?_
  have hdurable : Durable file [] fun pkg => pkg.Ended ∧ pkg.types.Knows t := durable_ended.and (durable_knows t)
  split
  · exact .pure fun _ _ _ => trivial
  · exact .fail rfl
  · exact .fail rfl
  · refine Yields.pre (P := fun pkg => pkg.Ended ∧ pkg.types.Knows t) ?_ fun _ _ h => h.1
    refine (hm.type sig).any.bind hdurable fun signature => .types fun tt => ?_
    refine .ite (fun _ => ?_) fun _ => .pure fun _ _ _ => trivial
    refine (addMethod_yields hdecl hmethod hname _).pre ?_
    rintro pkg hsane ⟨⟨⟨hended, ht⟩, hanswers⟩, -⟩
    exact ⟨hended, ht, (hsane.backed hanswers.backed).1⟩

end Meanings

/-! ### The passes -/

namespace ResolveM

/-- A fair fault that is recorded. -/
theorem outcome_recorded {Q : Unit → Package → Prop} {d : Diagnostic SemanticFault} (hsane : pkg.Sane file start)
    (hfair : d.cause.Fair start pkg.types) (hQ : Q () (pkg.recorded (some d))) :
    Outcome file start own pkg Q (.ok (), pkg.recorded (some d)) := by
  refine ⟨hsane.recorded ?_, .of_objects_eq (.of_tasks_eq ⟨rfl, rfl, rfl, rfl, .refl⟩ rfl) rfl
    (fun hflawed => Package.Sane.flawed_grows hflawed rfl) (List.Subset.refl _), hQ⟩
  rintro d' ⟨⟩
  exact hfair

/-- A fault that is recorded instead of being passed on. -/
theorem isolate_yields {a : ResolveM Unit} (h : Yields file start [] P a fun _ _ => True) :
    Yields file start [] P (isolate a) fun _ _ => True := by
  intro pkg hsane hpkg
  have hout := h pkg hsane hpkg
  have hattempt : attempt a file pkg = (.ok (a file pkg).1, (a file pkg).2) := rfl
  rw [isolate, run_bind hattempt]
  rcases hrun : a file pkg with ⟨(d | fault) | _, pkg₁⟩
  · rw [hrun] at hout
    obtain ⟨hsane₁, honto, hfair⟩ := hout
    show Outcome file start [] pkg _ (record d file pkg₁)
    rw [Meanings.record_eq]
    exact (outcome_recorded hsane₁ hfair trivial).after honto
  · rw [hrun] at hout
    exact hout
  · rw [hrun] at hout
    exact hout

/-- Looking for types that contain themselves. -/
theorem checkFinite_yields (entry : Entry) : Yields file start [] P (checkFinite entry) fun _ _ => True := by
  refine .ite (fun _ => .get fun q _ _ => ?_) fun _ => .pure fun _ _ _ => trivial
  cases hobj : q.objects.get? entry.name with
  | none => exact .pure fun _ _ _ => trivial
  | some obj =>
      dsimp only
      cases ht : obj.typ with
      | none => exact .pure fun _ _ _ => trivial
      | some t =>
          rintro pkg hsane ⟨-, rfl⟩
          dsimp only
          rw [ResolveM.bind_run, containsItself_eq]
          by_cases hskip : ((pkg.types.underlying? t).isNone || pkg.types.isInvalid t) = true
          · rw [if_pos hskip]
            exact ⟨hsane, .refl pkg, trivial⟩
          · have hknown := hsane.known _ obj t hobj ht
            have hbuilds : pkg.types.Builds (completed t pkg.types).2 := by
              refine ⟨Reaches.after .refl (.complete t) ?_ rfl, fun u _ => (leads_complete t pkg.types).shape_eq u⟩
              simpa [Operation.handles] using hknown
            have honto : Onto file [] pkg { pkg with types := (completed t pkg.types).2 } :=
              .of_objects_eq (.of_tasks_eq ⟨rfl, rfl, rfl, rfl, hbuilds.reaches⟩ rfl) rfl (fun hflawed => hflawed)
                (List.Subset.refl _)
            rw [if_neg hskip]
            refine Outcome.after honto ?_
            cases (completed t pkg.types).1.isComplete with
            | false => exact outcome_recorded (hsane.build hbuilds) (SemanticFault.fair_of_none rfl) trivial
            | true => exact ⟨hsane.build hbuilds, .refl _, trivial⟩

/-- All passes, when no declaration is under way. -/
theorem resolveAllWith_outcome {m : Meanings} {methods : List NodeId} (hlawful : m.Lawful file)
    (hm : m.Honest file start) (hsane : pkg.Sane file start) (hidle : ∀ spec, pkg.progress? spec ≠ some .resolving)
    (hmethods : ∀ decl ∈ methods, decl ∈ file.decls ∧ Package.isMethod file.tree decl = true) :
    Outcome file start [] pkg (fun _ pkg => pkg.Ended) (resolveAllWith m methods file pkg) := by
  have hfits := hsane.listed
  have hpasses : Yields file start []
      (fun q => (∀ spec, q.progress? spec ≠ some .resolving) ∧ q.tasks.map Task.entry = pkg.tasks.map Task.entry)
      ((pkg.tasks.map Task.entry).forM m.resolve >>= fun _ =>
        methods.forM (fun decl => isolate (m.method decl)) >>= fun _ => (pkg.tasks.map Task.entry).forM checkFinite)
      fun _ => Package.Ended := by
    have hdurable : Durable file [] fun q =>
        (∀ spec, q.progress? spec ≠ some .resolving) ∧ q.tasks.map Task.entry = pkg.tasks.map Task.entry :=
      durable_idle.and (durable_entries _)
    refine (Yields.forEach _ hdurable (fun entry => durable_progress entry.spec) fun entry hentry =>
      Meanings.resolve_yields hm hlawful (hfits entry hentry)).bind hdurable fun _ =>
        Yields.pre (P := Package.Ended) ?_ ?_
    · refine (Yields.forEach methods durable_ended (fun _ => durable_true) fun decl hdecl =>
        isolate_yields (Meanings.method_yields hm (hmethods decl hdecl).1 (hmethods decl hdecl).2)).bind durable_ended
        fun _ => ?_
      refine (((Yields.forEach _ durable_true (fun _ => durable_true) fun entry _ => checkFinite_yields entry).frame
        durable_ended).pre fun _ _ h => ⟨trivial, h.1⟩).mono fun _ _ _ h => h.2
    · -- No declaration is pending any more, and none is under way.
      rintro q - ⟨⟨hidle, hentries⟩, hnot⟩ spec (hpending | hresolving)
      · obtain ⟨task, hfind, -⟩ := Option.map_eq_some_iff.1 hpending
        have hspec : task.entry.spec = spec := by simpa using List.find?_some hfind
        have hmem : task.entry ∈ pkg.tasks.map Task.entry := by
          rw [← hentries]
          exact List.mem_map_of_mem (List.mem_of_find?_eq_some hfind)
        exact hnot task.entry hmem (hspec ▸ hpending)
      · exact hidle spec hresolving
  exact hpasses pkg hsane ⟨hidle, rfl⟩

end ResolveM

/-! ### The universe -/

/-- A predeclared type that stands for something valid. -/
theorem furnished_type {tt : TypeTable} {name : String} {t : TypeId} (ht : tt.Knows t)
    (hbound : (tt.underlying? t).isSome) (hkind : tt.kind t ≠ .invalid) :
    (Object.predeclaredType name t).Furnished tt := by
  refine ⟨fun _ => ⟨t, rfl, ht, hbound, ?_⟩, nofun⟩
  rw [TypeTable.isInvalid, decide_eq_false hkind, Bool.and_false]

theorem furnished_basic {tt : TypeTable} (h : tt.Sound) {name : String} {k : Kind} (hk : k.isBasic = true) :
    (Object.predeclaredType name (basic k)).Furnished tt := by
  have hsuits := h.suits_basic hk ""
  refine furnished_type hsuits.knows hsuits.bound ?_
  rw [← hsuits.kind_eq]
  rintro ⟨⟩
  cases hk

/-- Of what is neither a type nor a constant nothing is asked. -/
theorem furnished_of_ne {tt : TypeTable} {obj : Object} (htype : obj.role ≠ .type) (hconstant : obj.role ≠ .constant) :
    obj.Furnished tt :=
  ⟨fun hrole => absurd hrole htype, fun hrole => absurd hrole hconstant⟩

/-- The names that need no declaration stand for what they should. -/
theorem new_furnished {tt : TypeTable} (h : tt.Sound) :
    ∀ obj ∈ (Package.new tt).outer, obj.Furnished (Package.new tt).types := by
  obtain ⟨any, error, functions, tt', hrun, hreaches, hany, ⟨i, sig, ms, herror, hi, -⟩, hroles, hknown⟩ :=
    newUniverse_run h
  have hsound := (hreaches.grows h).sound
  have htruth (name : String) : (Object.truth name).Furnished tt' :=
    ⟨fun hrole => (by cases hrole), fun _ => .inr ⟨_, _, rfl, rfl, hsound.suits_basic rfl name⟩⟩
  have hanyType : (Object.predeclaredType "any" any).Furnished tt' := by
    have hbuilt : (tt'.shape any).isDeclared = false := by rw [hany]; rfl
    refine furnished_type (knows_of_shape_ne (by simp [hany])) (by rw [underlying?_of_built hbuilt]; rfl) ?_
    rw [hsound.kind_eq_kindOf, kindOf_of_built hbuilt, hany]
    simp [Shape.kind]
  have herrorType : (Object.predeclaredType "error" error).Furnished tt' := by
    have hunderlying : tt'.underlying? error = some i := by rw [TypeTable.underlying?, herror]
    refine furnished_type (knows_of_shape_ne (by simp [herror])) (by rw [hunderlying]; rfl) ?_
    rw [hsound.kind_eq_underlying, underlyingShape?, hunderlying, Option.map_some, hi]
    simp [Shape.kind]
  rw [new_eq hrun]
  intro obj hobj
  rcases List.mem_append.1 hobj with hobj | hobj
  · rw [predeclaredNames, List.mem_append] at hobj
    rcases hobj with hobj | hobj
    · obtain ⟨k, hk, rfl⟩ := List.mem_map.1 hobj
      have hbasic : k ∈ Kind.basics := (List.mem_filter.1 hk).1
      rw [Kind.basics, List.mem_filter] at hbasic
      exact furnished_basic hsound hbasic.2
    · simp only [List.mem_cons, List.not_mem_nil, or_false] at hobj
      rcases hobj with rfl | rfl | rfl | rfl | rfl | rfl | rfl
      · exact furnished_basic hsound rfl
      · exact furnished_basic hsound rfl
      · exact hanyType
      · exact herrorType
      · exact htruth "true"
      · exact htruth "false"
      · exact furnished_of_ne (by decide) (by decide)
  · have hrole := hroles obj hobj
    exact furnished_of_ne (by rw [hrole]; decide) (by rw [hrole]; decide)

/-- They go on to do so while files are resolved. -/
theorem Package.Session.furnished (h : pkg.Session) : ∀ obj ∈ pkg.outer, obj.Furnished pkg.types := by
  induction h with
  | new h => exact new_furnished (regular_of_reachable h).toSound
  | resolved h hfile hdecls ih =>
      obtain ⟨houter, hreaches⟩ := resolveDecls_reaches h hfile hdecls
      have hsound := h.ready.regular.toSound
      intro obj hobj
      rw [houter] at hobj
      exact (ih obj hobj).grows (hreaches.grows hsound) hsound
  | operation h op hknown ih =>
      have hsound := h.ready.regular.toSound
      exact fun obj hobj => (ih obj hobj).grows ((Reaches.refl.step op hknown).grows hsound) hsound

/-! ### Names that have been collected -/

namespace Package

/-- What is known about a name that has been collected: only a declared type has something, which is new. -/
structure Named (file : ParsedFile) (start : TypeTable) (pkg : Package) (entry : Entry) (obj : Object) : Prop where
  role_eq : obj.role = entry.role
  scheduled : entry.role ≠ .package → (pkg.progress? entry.spec).isSome
  own : entry.role = .type → file.tree.op entry.spec = .kw .type → ∃ t, obj.typ = some t ∧ ¬ start.Knows t ∧
    ∃ bound ms, pkg.types.shape t = .named pkg.path (file.tree.literal entry.name) bound ms
  untyped : ¬ (entry.role = .type ∧ file.tree.op entry.spec = .kw .type) → obj.typ = none
  worthless : obj.value = none

theorem Named.later (h : pkg.Named file start entry obj) (hpath : pkg'.path = pkg.path)
    (hext : Extends pkg.types pkg'.types)
    (hprogress : ∀ spec, (pkg.progress? spec).isSome → (pkg'.progress? spec).isSome) :
    pkg'.Named file start entry obj := by
  refine ⟨h.role_eq, fun hrole => hprogress _ (h.scheduled hrole), fun hrole hop => ?_, h.untyped, h.worthless⟩
  obtain ⟨t, ht, hnew, bound, ms, hs⟩ := h.own hrole hop
  obtain ⟨bound', ms', hs', -⟩ := hext.named_eq hs
  exact ⟨t, ht, hnew, bound', ms', hpath ▸ hs'⟩

/-- A package whose names have been collected, and in which nothing has a meaning yet. -/
structure Blank (file : ParsedFile) (start : TypeTable) (pkg : Package) : Prop extends
    pkg.Gathered file, pkg.StartsFrom start where
  agreed : ∀ d ∈ pkg.faults, d.cause.mismatch? = none
  furnished : ∀ obj ∈ pkg.outer, obj.Furnished pkg.types
  present : ∀ name entry, pkg.declared? name = some entry → (pkg.objects.get? entry.name).isSome
  owned : ∀ id obj, pkg.objects.get? id = some obj → ∃ entry : Entry, entry.Fits file ∧ entry.name = id
  named : ∀ entry : Entry, entry.Fits file → ∀ obj, pkg.objects.get? entry.name = some obj →
    pkg.Named file start entry obj

namespace Blank

theorem report (h : pkg.Blank file start) (node : NodeId) {cause : SemanticFault} (hcause : cause.isOfNames = true) :
    (pkg.report file node cause).Blank file start := by
  refine ⟨h.toGathered.report node cause, h.toStartsFrom.later rfl .refl, fun d hd => ?_, h.furnished, h.present,
    h.owned, fun e he obj hobj => (h.named e he obj hobj).later rfl (.refl _) fun _ => id⟩
  obtain hd | rfl := Array.mem_push.1 hd
  · exact h.agreed d hd
  · show cause.mismatch? = none
    cases cause with
    | constantMismatch => cases hcause
    | variableMismatch => cases hcause
    | _ => rfl

theorem newType (h : pkg.Blank file start) (name : String) : (pkg.newType name).2.Blank file start := by
  have hsound := h.regular.toSound
  have hreaches : Reaches pkg.types (pkg.newType name).2.types :=
    Reaches.after .refl (.named pkg.path name) (by simp [Operation.handles]) rfl
  have hgrows := hreaches.grows hsound
  exact ⟨h.toGathered.newType name, h.toStartsFrom.later rfl hreaches, h.agreed,
    fun obj hobj => (h.furnished obj hobj).grows hgrows hsound, h.present, h.owned,
    fun e he obj hobj => (h.named e he obj hobj).later rfl hgrows.toExtends fun _ => id⟩

/-- A name is entered. -/
theorem entered (h : pkg.Blank file start) (hentry : entry.Fits file) (obj : Object) {pkg' : Package}
    (hgathered : pkg'.Gathered file)
    (htypes : pkg'.types = pkg.types) (houter : pkg'.outer = pkg.outer) (hfaults : pkg'.faults = pkg.faults)
    (hobjects : pkg'.objects = pkg.objects.insert entry.name obj)
    (hscope : ∀ name e, pkg'.declared? name = some e → e = entry ∨ pkg.declared? name = some e)
    (hpath : pkg'.path = pkg.path) (hprogress : ∀ spec, (pkg.progress? spec).isSome → (pkg'.progress? spec).isSome)
    (hnamed : pkg'.Named file start entry obj) : pkg'.Blank file start := by
  refine ⟨hgathered, h.toStartsFrom.later houter (htypes ▸ .refl), fun d hd => h.agreed d (hfaults ▸ hd),
    fun o ho => ?_, fun name e he => ?_, fun id o ho => ?_, fun e he o ho => ?_⟩
  · rw [htypes]
    exact h.furnished o (houter ▸ ho)
  · rw [hobjects]
    by_cases hname : e.name = entry.name
    · rw [hname, NodeMap.get?_insert_self]
      rfl
    · rw [NodeMap.get?_insert_of_ne _ _ hname]
      obtain rfl | hold := hscope name e he
      · exact absurd rfl hname
      · exact h.present name e hold
  · rw [hobjects] at ho
    by_cases hid : id = entry.name
    · exact ⟨entry, hentry, hid.symm⟩
    · rw [NodeMap.get?_insert_of_ne _ _ hid] at ho
      exact h.owned id o ho
  · rw [hobjects] at ho
    by_cases hname : e.name = entry.name
    · obtain rfl := he.eq_of_name h.forest hentry hname
      rw [NodeMap.get?_insert_self] at ho
      cases ho
      exact hnamed
    · rw [NodeMap.get?_insert_of_ne _ _ hname] at ho
      exact (h.named e he o ho).later hpath (htypes ▸ .refl _) hprogress

theorem declare (h : pkg.Blank file start) {role : Role} {spec node : NodeId}
    (hentry : ({ name := node, spec, role } : Entry).Fits file) :
    (pkg.declare file role spec node).Blank file start := by
  have hrest {pkg : Package} (h : pkg.Blank file start) {typ : Option TypeId} {anonymous : Bool}
      (hown : role = .type → file.tree.op spec = .kw .type → ∃ t, typ = some t ∧ ¬ start.Knows t ∧
        ∃ bound ms, pkg.types.shape t = .named pkg.path (file.tree.literal node) bound ms)
      (huntyped : ¬ (role = .type ∧ file.tree.op spec = .kw .type) → typ = none)
      (hgathered : (if !anonymous && pkg.isTaken (file.tree.literal node) then
          pkg.report file node (.redeclared (file.tree.literal node))
        else (pkg.enter anonymous { name := node, spec, role }
          { name := file.tree.literal node, role, typ, decl := some spec }).schedule
            { name := node, spec, role }).Gathered file) :
      (if !anonymous && pkg.isTaken (file.tree.literal node) then
          pkg.report file node (.redeclared (file.tree.literal node))
        else (pkg.enter anonymous { name := node, spec, role }
          { name := file.tree.literal node, role, typ, decl := some spec }).schedule
            { name := node, spec, role }).Blank file start := by
    by_cases htaken : (!anonymous && pkg.isTaken (file.tree.literal node)) = true
    · rw [if_pos htaken]
      exact h.report node rfl
    · rw [if_neg htaken] at hgathered ⊢
      obtain ⟨hself, hothers⟩ := Fresh.isSome_progress?_schedule
        (pkg.enter anonymous { name := node, spec, role }
          { name := file.tree.literal node, role, typ, decl := some spec })
        { name := node, spec, role }
      rw [Fresh.schedule_eq] at hgathered hself hothers ⊢
      exact h.entered hentry { name := file.tree.literal node, role, typ, decl := some spec } hgathered rfl rfl rfl rfl
        (fun _ _ => lookup_enter) rfl hothers ⟨rfl, fun _ => hself, hown, huntyped, rfl⟩
  have hgathered := h.toGathered.declare hentry
  by_cases hbad : file.tree.isBad node = true
  · rw [Package.declare, if_pos hbad]
    exact h
  · rw [Package.declare, if_neg hbad] at hgathered ⊢
    dsimp only at hgathered ⊢
    by_cases htype : role = .type ∧ file.tree.op spec = .kw .type
    · rw [if_pos htype] at hgathered ⊢
      refine hrest (h.newType _) (fun _ _ => ⟨_, rfl, fun hknown => ?_, none, [], ?_⟩) (absurd htype) hgathered
      · exact Nat.lt_irrefl _ ((h.begins.grows h.origin).knows hknown)
      · exact (shape_pushed _ _ _ _).trans (if_pos rfl)
    · rw [if_neg htype] at hgathered ⊢
      exact hrest h (fun hrole hop => absurd ⟨hrole, hop⟩ htype) (fun _ => rfl) hgathered

/-- Nothing is wrong with an entity before anything is resolved. -/
theorem sane (h : pkg.Blank file start) : pkg.Sane file start := by
  have hawaits (e : Entry) (he : e.Fits file) (hrole : e.role = .type) (obj : Object)
      (hobj : pkg.objects.get? e.name = some obj) : pkg.Awaits file e :=
    ⟨he, hrole, .inl (h.toGathered.pending_of_isSome ((h.named e he obj hobj).scheduled (by simp [hrole])))⟩
  refine ⟨h.toOrderly, h.toStartsFrom, fun d hd => SemanticFault.fair_of_none (h.agreed d hd), h.furnished, h.present,
    fun id obj hobj _ => h.owned id obj hobj, fun entry hentry obj hobj => ?_, fun e e' t he he' => ?_⟩
  · have hnamed := h.named entry hentry obj hobj
    have huntyped (hrole : entry.role ≠ .type) : obj.typ = none := hnamed.untyped fun htype => hrole htype.1
    -- A type stands for nothing yet.
    have hunbound (hrole : entry.role = .type) (t : TypeId) (ht : obj.typ = some t) :
        pkg.types.underlying? t = none := by
      obtain ⟨obj', hobj', hunbound⟩ := h.awaited entry (hawaits entry hentry hrole obj hobj)
      cases hobj.symm.trans hobj'
      obtain ⟨pkgPath, name, ms, hs⟩ := hunbound t ht
      rw [TypeTable.underlying?, hs]
    refine ⟨hnamed.role_eq, hnamed.scheduled, fun hrole _ => ⟨huntyped hrole, hnamed.worthless⟩,
      fun hrole t ht => .inr ⟨entry, obj, hawaits entry hentry hrole obj hobj, hobj, ht⟩, fun hrole t ht hinvalid => ?_,
      fun hrole => .inl ⟨hnamed.worthless, huntyped (by simp [hrole])⟩, fun hrole y _ t ht => ?_,
      ⟨hnamed.own, fun _ hop _ => hnamed.untyped fun htype => hop htype.2, fun t ht _ => ?_,
        fun hrole _ t u ht hu => ?_, fun v hv => ?_⟩, fun hdone => ?_⟩
    · rw [TypeTable.isInvalid, hunbound hrole t ht] at hinvalid
      cases hinvalid
    · cases (huntyped (by simp [hrole])).symm.trans ht
    · have hdeclared : entry.role = .type ∧ file.tree.op entry.spec = .kw .type := by
        by_contra hdeclared
        cases (hnamed.untyped hdeclared).symm.trans ht
      refine ⟨.declared entry, (Rule.name (.declared hdeclared.1 hdeclared.2)).said, .declared ?_⟩
      exact ⟨hentry, hdeclared.1, hdeclared.2, Option.bind_eq_some_iff.2 ⟨obj, hobj, ht⟩⟩
    · cases (hunbound hrole t ht).symm.trans hu
    · cases hnamed.worthless.symm.trans hv
    · cases (h.toGathered.pending_of_isSome (by rw [hdone]; rfl)).symm.trans hdone
  · obtain ⟨obj, hobj, ht⟩ := Option.bind_eq_some_iff.1 he.typ_eq
    obtain ⟨obj', hobj', ht'⟩ := Option.bind_eq_some_iff.1 he'.typ_eq
    exact h.apart e e' (hawaits e he.fits he.role_eq obj hobj) (hawaits e' he'.fits he'.role_eq obj' hobj') obj obj' t
      hobj hobj' ht ht'

end Blank

theorem collects_blank : Collects file (Blank file start) where
  report node hcause h := h.report node hcause
  enter {pkg entry obj} anonymous hentry hrole hobj htyp hvalue h := by
    refine h.entered hentry obj (collects_gathered.enter anonymous hentry hrole hobj htyp hvalue h.toGathered) rfl rfl
      rfl rfl (fun _ _ => lookup_enter) rfl (fun _ => id) ?_
    refine ⟨hobj.trans hrole.symm, fun hne => absurd hrole hne, fun htype => ?_, fun _ => htyp, hvalue⟩
    cases hrole.symm.trans htype
  declare hentry h := h.declare hentry

end Package

/-! ### Files -/

variable {decls : List NodeId}

/-- The names of a file are collected into a package in which nothing is resolved. -/
theorem Package.Session.blank_collected (hpkg : pkg.Session) (hstart : pkg.StartsFrom start) (hfile : file.Parsed)
    (hdecls : ∀ decl ∈ decls, decl ∈ file.decls) : (pkg.collected file decls).Blank file start := by
  have hreset : (pkg.reset (Package.pathOf file.tree decls)).Blank file start := by
    refine ⟨Package.gathered_reset hpkg.ready hfile.forest _, hstart.later rfl .refl, fun d hd => ?_, hpkg.furnished,
      nofun, fun id obj hobj => ?_, fun entry _ obj hobj => ?_⟩
    · exact absurd hd (Array.not_mem_empty d)
    · cases hobj
    · cases hobj
  exact Package.collects_blank.collected hreset hdecls

/-- The package in which the declarations of a file have been resolved is sane, and no declaration is open.  If the work
was given up, the faults that had been found are fair nonetheless. -/
theorem resolveDecls_sane (hpkg : pkg.Session) (hstart : pkg.StartsFrom start) (hfile : file.Parsed)
    (hdecls : ∀ decl ∈ decls, decl ∈ file.decls) :
    Outcome file start [] (pkg.collected file decls) (fun _ pkg => pkg.Ended) (pkg.resolveDecls file decls) := by
  have hblank := hpkg.blank_collected hstart hfile hdecls
  have hidle (spec : NodeId) : (pkg.collected file decls).progress? spec ≠ some .resolving := by
    intro hresolving
    cases (hblank.toGathered.pending_of_isSome (by rw [hresolving]; rfl)).symm.trans hresolving
  obtain ⟨hlawful, hhonest⟩ := honest_unfold (pkg.depth file decls)
  -- Resolution does what its recursion does when it is unfolded often enough.
  obtain ⟨hsame, -⟩ := resolveAll_same hfile.forest Meanings.silent (pkg.depth file decls)
    (decls.filter (Package.isMethod file.tree)) (pkg.collected file decls) (Nat.le_refl _)
  show Outcome file start [] _ _
    (ResolveM.resolveAll (decls.filter (Package.isMethod file.tree)) file (pkg.collected file decls))
  rw [hsame]
  refine ResolveM.resolveAllWith_outcome hlawful hhonest hblank.sane hidle fun decl hdecl => ?_
  exact ⟨hdecls decl (List.mem_filter.1 hdecl).1, (List.mem_filter.1 hdecl).2⟩

/-- When the declarations have been resolved, and no method has been looked at, the package is sane. -/
theorem declarations_sane (hpkg : pkg.Session) (hfile : file.Parsed) (hdecls : ∀ decl ∈ decls, decl ∈ file.decls)
    {x : Unit} (hrun : ((pkg.collected file decls).tasks.map Task.entry).forM
      (fun entry => ResolveM.run (·.resolve entry)) file (pkg.collected file decls) = (.ok x, pkg')) :
    pkg'.Sane file pkg.types := by
  have hblank := hpkg.blank_collected hpkg.startsFrom hfile hdecls
  obtain ⟨hlawful, hhonest⟩ := honest_unfold (pkg.depth file decls)
  obtain ⟨hsame, -⟩ := Same.forM ((pkg.collected file decls).tasks.map Task.entry) (fun entry _ =>
    run_same hfile.forest Meanings.silent (Nat.zero_le _) fun hclose =>
      Meanings.resolve_same hclose hfile.forest entry) (pkg.collected file decls) (Nat.le_refl (pkg.depth file decls))
  have hout : Outcome file pkg.types [] _ _ _ := Yields.forEach _ (durable_true) (fun _ => durable_true)
    (fun entry hentry => (Meanings.resolve_yields hhonest hlawful (hblank.listed entry hentry)).mono
      fun _ _ _ _ => trivial) (pkg.collected file decls) hblank.sane trivial
  rw [← hsame, hrun] at hout
  exact hout.1

/-- Where the work on a file is not given up, every type in the package stands for something, be it the invalid type,
and every constant has a value of the kind of its type, or has neither a value nor a type. -/
theorem resolved_objects (hpkg : pkg.Session) (hfile : file.Parsed) (hdecls : ∀ decl ∈ decls, decl ∈ file.decls)
    (hok : pkg.resolveDecls file decls = (.ok (), pkg'))
    (hobj : obj ∈ pkg'.outer ∨ ∃ id, pkg'.objects.get? id = some obj) :
    (obj.role = .type → ∃ t u, obj.typ = some t ∧ pkg'.types.underlying? t = some u) ∧
      (obj.role = .constant → obj.value = none ∧ obj.typ = none ∨
        ∃ v t, obj.value = some v ∧ obj.typ = some t ∧ v.kind = pkg'.types.kind t) := by
  have hout := resolveDecls_sane hpkg hpkg.startsFrom hfile hdecls
  rw [hok] at hout
  obtain ⟨hsane, -, hended⟩ := hout
  have hvalued (h : obj.Valued pkg'.types) : obj.value = none ∧ obj.typ = none ∨
      ∃ v t, obj.value = some v ∧ obj.typ = some t ∧ v.kind = pkg'.types.kind t :=
    h.imp_right fun ⟨v, t, hv, ht, hsuits⟩ => ⟨v, t, hv, ht, hsuits.kind_eq⟩
  obtain houter | ⟨id, hid⟩ := hobj
  · have hfurnished := hsane.furnished obj houter
    refine ⟨fun hrole => ?_, fun hrole => hvalued (hfurnished.constant hrole)⟩
    obtain ⟨t, ht, -, hbound, -⟩ := hfurnished.type hrole
    exact ⟨t, _, ht, (Option.some_get hbound).symm⟩
  · have hformed (hrole : obj.role = .type ∨ obj.role = .constant) :
        ∃ entry, pkg'.Formed file pkg.types entry obj ∧ obj.role = entry.role := by
      obtain ⟨entry, hentry, rfl⟩ := hsane.owned id obj hid hrole
      have hformed := hsane.formed entry hentry obj hid
      exact ⟨entry, hformed, hformed.role_eq⟩
    refine ⟨fun hrole => ?_, fun hrole => ?_⟩
    · obtain ⟨entry, hformed, hsame⟩ := hformed (.inl hrole)
      have hentry : entry.role = .type := hsame.symm.trans hrole
      have hdone := hended.done (hformed.scheduled (by simp [hentry]))
      obtain ⟨t, ht⟩ := Option.isSome_iff_exists.1 ((hformed.finished hdone).typed hentry)
      -- No declaration is left that could give the type its meaning.
      have hbound := (hformed.rooted hentry t ht).resolve_right fun ⟨e, _, he, _⟩ => hended.not_awaits e he
      exact ⟨t, _, ht, (Option.some_get hbound).symm⟩
    · obtain ⟨entry, hformed, hsame⟩ := hformed (.inr hrole)
      exact hvalued (hformed.constant (hsame.symm.trans hrole))

/-- A type that is bound to the invalid type, an alias of it, and constants of which only the first gets a value. -/
theorem resolved_objects_failed :
    let file := ParsedFile.ofString "a.go" "package p\ntype T U; type A = []T\nconst a, b int8 = 1, T\nvar x A\n"
    let pkg := Package.new (TypeTable.new .amd64)
    (pkg.resolveFile file).2.faults.size = 2 ∧
      ∀ obj, (obj ∈ (pkg.resolveFile file).2.outer ∨ ∃ id, (pkg.resolveFile file).2.objects.get? id = some obj) →
        (obj.role = .type → ∃ t u, obj.typ = some t ∧ (pkg.resolveFile file).2.types.underlying? t = some u) ∧
          (obj.role = .constant → obj.value = none ∧ obj.typ = none ∨
            ∃ v t, obj.value = some v ∧ obj.typ = some t ∧ v.kind = (pkg.resolveFile file).2.types.kind t) := by
  intro file pkg
  have hfile : file.Parsed := ParsedFile.parsed_ofString _ _
  have ⟨hok, hsize⟩ : (pkg.resolveFile file).1.toBool = true ∧ (pkg.resolveFile file).2.faults.size = 2 := by
    decide +kernel
  refine ⟨hsize, fun obj hobj => resolved_objects (.new ⟨.amd64, .refl⟩) hfile (fun _ h => h) ?_ hobj⟩
  match hrun : pkg.resolveFile file with
  | (.ok (), pkg') => exact hrun
  | (.error failure, pkg') =>
      rw [hrun] at hok
      cases hok

/-! ### Mismatches -/

/-- A value is reported as not fitting a declared type only if it was not assignable to it, at a time when the declared
type was not invalid.  If that stood for something by then, it is valid for good. -/
theorem mismatch_declared_valid (hpkg : pkg.Session) (hfile : file.Parsed) (hdecls : ∀ decl ∈ decls, decl ∈ file.decls)
    {d : Diagnostic SemanticFault} (hd : d ∈ (pkg.resolveDecls file decls).2.faults) {value declared : String}
    (hcause : d.cause.mismatch? = some (value, declared)) :
    ∃ tt t u, Reaches pkg.types tt ∧ Reaches tt (pkg.resolveDecls file decls).2.types ∧
      value = tt.spell t ∧ declared = tt.spell u ∧ tt.isInvalid u = false ∧ tt.assignable t u = false ∧
      ((tt.underlying? u).isSome → (pkg.resolveDecls file decls).2.types.isInvalid u = false) := by
  obtain ⟨tt, t, u, hbefore, hafter, -, hu, hvalue, hdeclared, hvalid, hnot⟩ :=
    (resolveDecls_sane hpkg hpkg.startsFrom hfile hdecls).fair d hd value declared hcause
  refine ⟨tt, t, u, hbefore, hafter, hvalue, hdeclared, hvalid, hnot, fun hbound => ?_⟩
  have hsound := (hbefore.grows hpkg.ready.regular.toSound).sound
  by_contra hinvalid
  rw [(hafter.grows hsound).isInvalid_before hsound hu (fun _ => hbound) (by simpa using hinvalid)] at hvalid
  cases hvalid

/-- A text that is no number. -/
theorem mismatch_declared_valid_text :
    let file := ParsedFile.ofString "a.go" "package p\nvar x int = \"s\"\n"
    let pkg := Package.new (TypeTable.new .amd64)
    ∃ d ∈ (pkg.resolveFile file).2.faults, d.cause = .variableMismatch "\"s\"" "untyped string" "int" ∧
      ∃ tt t u, Reaches pkg.types tt ∧ Reaches tt (pkg.resolveFile file).2.types ∧
        "untyped string" = tt.spell t ∧ "int" = tt.spell u ∧ tt.isInvalid u = false ∧ tt.assignable t u = false ∧
        ((tt.underlying? u).isSome → (pkg.resolveFile file).2.types.isInvalid u = false) := by
  intro file pkg
  have hfile : file.Parsed := ParsedFile.parsed_ofString _ _
  have hfaults : (pkg.resolveFile file).2.faults.map (·.cause) =
      #[.variableMismatch "\"s\"" "untyped string" "int"] := by
    decide +kernel
  have hmem : SemanticFault.variableMismatch "\"s\"" "untyped string" "int" ∈
      (pkg.resolveFile file).2.faults.map (·.cause) := by
    rw [hfaults]
    exact Array.mem_singleton.2 rfl
  obtain ⟨d, hd, hcause⟩ := Array.mem_map.1 hmem
  exact ⟨d, hd, hcause, mismatch_declared_valid (.new ⟨.amd64, .refl⟩) hfile (fun _ h => h) hd (by rw [hcause]; rfl)⟩

/-- The type of the value may be invalid: `x` has a type whose declaration failed before, and yet `x` is reported as not
fitting `int`. -/
theorem mismatch_of_failed_type :
    let file := ParsedFile.ofString "a.go" "package p\ntype T undefinedT\nvar x T\nvar y int = x\n"
    let pkg := ((Package.new (TypeTable.new .amd64)).resolveFile file).2
    pkg.faults.map (·.cause) = #[.undefined "undefinedT", .variableMismatch "x" "p.T" "int"] ∧
      ((pkg.lookup "x").bind Object.typ).map pkg.types.isInvalid = some true ∧
      (pkg.lookup "x").bind Object.typ = (pkg.lookup "T").bind Object.typ := by
  decide +kernel

end GoSource
