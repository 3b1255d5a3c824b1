import GoSource.Proofs.Package.Sanity
import GoSource.Proofs.Typing.Declared

/-!
# Methods that are declared twice

A method whose receiver is spelled as it was before is reported, whatever its signature is.  A receiver that is spelled
in another way, by an alias, is found to be the same one only when the method is added to its type, and there a second
declaration with the same signature changes nothing.

* **`MethodStep`**: a method declaration, with the package that it is looked at in and the one that is left.
  `methodSteps` lists them.
* **`MethodStep.Offers`**: the declaration is one of a method of a given name and type.
* **`MethodStep.Taken`** is what one step does, and `methodSteps_taken` says it of all.
* **`methods_declared_once`**: which of several declarations of a method are reported.
-/

namespace GoSource

open TypeTable

variable {file : ParsedFile} {start : TypeTable} {pkg pkg' pkg₁ : Package} {decl x : NodeId}
  {name receiver : String} {t signature : TypeId} {d : Diagnostic SemanticFault}

/-! ### Adding a method -/

namespace Meanings

/-- A receiver and a name that have been seen are not seen again. -/
theorem addMethod_noted (h : (receiver, file.tree.literal x) ∈ pkg.methods) :
    ∃ d, addMethod decl x receiver t signature file pkg = (.error (.declaration d), pkg) := by
  have hseen : pkg.methods.contains (receiver, file.tree.literal x) = true := List.elem_eq_true_of_mem h
  rw [addMethod, ResolveM.run_bind (ResolveM.tree_run file pkg), ResolveM.run_bind (ResolveM.get_run file pkg)]
  dsimp only
  rw [if_pos hseen]
  exact ⟨_, rfl⟩

/-- Otherwise they are noted, and the method is added to its type. -/
theorem addMethod_new (h : (receiver, file.tree.literal x) ∉ pkg.methods) :
    (receiver, file.tree.literal x) ∈ (addMethod decl x receiver t signature file pkg).2.methods ∧
      ((addMethod decl x receiver t signature file pkg).1 = .ok () →
        { name := file.tree.literal x, pkgPath := pkg.methodPath (file.tree.literal x), typ := signature } ∈
          (addMethod decl x receiver t signature file pkg).2.types.declared t) := by
  have hnew : pkg.methods.contains (receiver, file.tree.literal x) = false := by simpa using h
  rw [addMethod, ResolveM.run_bind (ResolveM.tree_run file pkg), ResolveM.run_bind (ResolveM.get_run file pkg)]
  dsimp only
  rw [if_neg (by rw [hnew]; exact Bool.false_ne_true), ResolveM.run_bind (modify_run _ file pkg),
    ResolveM.run_bind (ResolveM.get_run file _), ResolveM.bind_run, ResolveM.buildAt, ResolveM.bind_run,
    Does.onTypes_eq]
  dsimp only
  cases houtcome : (TypeTable.addMethod t _ pkg.types).1 with
  | ok _ => exact ⟨List.mem_cons_self, fun _ => mem_declared_of_addMethod houtcome⟩
  | error fault => cases fault <;> exact ⟨List.mem_cons_self, fun hok => by cases hok⟩

end Meanings

/-! ### One declaration -/

/-- No method can be declared on pointers and interfaces. -/
def Package.Bars (pkg : Package) (t : TypeId) : Prop :=
  pkg.types.kind t = .pointer ∨ pkg.types.kind t = .interface

/-- A method declaration, once its receiver is known and its signature is resolved. -/
theorem Meanings.method_run {m : Meanings} {recv base sig : NodeId} (hrecv : file.tree.part? decl 0 = some recv)
    (hx : file.tree.part? decl 1 = some x) (hsig : file.tree.part? decl 2 = some sig)
    (hop : file.tree.op x = .lit .ident) (hbase : receiverBase recv file pkg = (.ok base, pkg))
    (ht : receiverType base (file.tree.literal base) file pkg = (.ok t, pkg)) (hvalid : pkg.types.kind t ≠ .invalid)
    (htype : m.type sig file pkg = (.ok signature, pkg₁)) (hsignature : pkg₁.types.isInvalid signature = false) :
    (pkg.Bars t ∧ ∃ d, m.method decl file pkg = (.error (.declaration d), pkg)) ∨
      ¬ pkg.Bars t ∧
        m.method decl file pkg = addMethod decl x (file.tree.literal base) t signature file pkg₁ := by
  rw [method, ResolveM.run_bind (ResolveM.part_run hrecv), ResolveM.run_bind (ResolveM.part_run hx),
    ResolveM.run_bind (ResolveM.part_run hsig), ResolveM.run_bind (ResolveM.tree_run file _)]
  dsimp only
  rw [if_neg (by simp [hop]), ResolveM.run_bind hbase, ResolveM.run_bind ht,
    ResolveM.run_bind (ResolveM.types_run file _), Package.Bars]
  cases hkind : pkg.types.kind t with
  | invalid => exact absurd hkind hvalid
  | pointer => exact .inl ⟨.inl rfl, _, rfl⟩
  | interface => exact .inl ⟨.inr rfl, _, rfl⟩
  | _ =>
      refine .inr ⟨by simp, ?_⟩
      dsimp only
      rw [ResolveM.run_bind htype, ResolveM.run_bind (ResolveM.types_run file _), hsignature]
      rfl

/-- The type that a name of the package denotes. -/
def Package.denoted? (pkg : Package) (name : String) : Option TypeId :=
  (pkg.declared? name).bind fun entry =>
    if entry.role = .type then (pkg.objects.get? entry.name).bind Object.typ else none

/-- A declaration of a method, with the package in which it is looked at and the one that is left. -/
structure MethodStep where
  /-- The declaration. -/
  decl : NodeId
  before : Package
  after : Package

/-- The declarations of methods, looked at one after another. -/
def methodSteps (file : ParsedFile) : List NodeId → Package → List MethodStep
  | [], _ => []
  | decl :: rest, pkg =>
      let after := (ResolveM.isolate (ResolveM.run (·.method decl)) file pkg).2
      { decl, before := pkg, after } :: methodSteps file rest after

namespace MethodStep

variable {s s' : MethodStep}

/-- Nothing is reported. -/
def Silent (s : MethodStep) : Prop :=
  s.after.faults = s.before.faults

/-- One fault is reported. -/
def Reports (s : MethodStep) (d : Diagnostic SemanticFault) : Prop :=
  s.after.faults = s.before.faults.push d

/-- The declaration is one of a method `name`.  Its receiver is spelled `receiver`, which denotes `t`, a declared type
that is not invalid, and its signature is resolved to a type that is not invalid either. -/
structure Offers (file : ParsedFile) (s : MethodStep) (name receiver : String) (t signature : TypeId) : Prop where
  named : ∃ x, file.tree.part? s.decl 1 = some x ∧ file.tree.op x = .lit .ident ∧ file.tree.literal x = name
  received : ∃ recv base, file.tree.part? s.decl 0 = some recv ∧
    Meanings.receiverBase recv file s.before = (.ok base, s.before) ∧ file.tree.literal base = receiver ∧
    Meanings.receiverType base receiver file s.before = (.ok t, s.before)
  valid : s.before.types.kind t ≠ .invalid
  signed : ∃ sig pkg, file.tree.part? s.decl 2 = some sig ∧
    ResolveM.run (·.type sig) file s.before = (.ok signature, pkg) ∧ pkg.types.isInvalid signature = false

/-- What is done with a declaration that offers a method: it is at fault, or the method is added. -/
theorem Offers.run (h : s.Offers file name receiver t signature) :
    (s.before.Bars t ∧ ∃ d, ResolveM.run (·.method s.decl) file s.before = (.error (.declaration d), s.before)) ∨
      ¬ s.before.Bars t ∧ ∃ x sig pkg, file.tree.literal x = name ∧ file.tree.part? s.decl 2 = some sig ∧
        ResolveM.run (·.type sig) file s.before = (.ok signature, pkg) ∧
        ResolveM.run (·.method s.decl) file s.before = Meanings.addMethod s.decl x receiver t signature file pkg := by
  obtain ⟨x, hx, hop, rfl⟩ := h.named
  obtain ⟨recv, base, hrecv, hbase, rfl, ht⟩ := h.received
  obtain ⟨sig, pkg, hsig, htype, hsignature⟩ := h.signed
  exact (Meanings.method_run hrecv hx hsig hop hbase ht h.valid htype hsignature).imp_right fun ⟨hfree, hrun⟩ =>
    ⟨hfree, x, sig, pkg, rfl, hsig, htype, hrun⟩

theorem Reports.not_silent (h : s.Reports d) : ¬ s.Silent := by
  intro hsilent
  have hsize := congrArg Array.size (h.symm.trans hsilent)
  rw [Array.size_push] at hsize
  omega

/-- What one step does in a sane package.  If the method is refused, that is reported. -/
structure Taken (file : ParsedFile) (start : TypeTable) (s : MethodStep) : Prop where
  sane : s.before.Sane file start
  ended : s.before.Ended
  onto : Onto file [] s.before s.after
  outcome : (ResolveM.run (·.method s.decl) file s.before = (.ok (), s.after) ∧ s.Silent) ∨
    ∃ d pkg, ResolveM.run (·.method s.decl) file s.before = (.error (.declaration d), pkg) ∧
      s.after = pkg.recorded (some d) ∧ s.Reports d ∧ d.LiesIn file s.decl

theorem Taken.faults_subset (h : s.Taken file start) : s.before.faults.toList ⊆ s.after.faults.toList := by
  obtain ⟨-, hsilent⟩ | ⟨d, pkg, -, -, hreports, -⟩ := h.outcome
  · rw [hsilent]
    exact List.Subset.refl _
  · rw [hreports, Array.toList_push]
    exact List.subset_append_left _ _

end MethodStep

/-- Asking for the type of a signature. -/
theorem type_outcome {sig : NodeId} (hsane : pkg.Sane file start) (hsig : file.tree.part? decl 2 = some sig) :
    Outcome file start [] pkg (fun _ _ => True) (ResolveM.run (·.type sig) file pkg) := by
  let n := pkg.weight file.tree.size (file.tree.size + 1)
  obtain ⟨-, hhonest⟩ := honest_unfold n
  obtain ⟨hsame, -⟩ := run_same hsane.forest Meanings.silent (Nat.le_refl _)
    (fun hclose => hclose.type_spec hsane.forest hsig) pkg (Nat.le_refl n)
  rw [hsame]
  exact (hhonest.type sig).mono (fun _ _ _ _ => trivial) pkg hsane trivial

/-- A fault is the only thing that is recorded when no declaration is left. -/
theorem method_faults (horderly : pkg.Orderly file) (hended : pkg.Ended) (hdecl : decl ∈ file.decls)
    (hmethod : Package.isMethod file.tree decl = true) :
    (∀ x pkg', ResolveM.run (·.method decl) file pkg = (.ok x, pkg') → pkg'.faults = pkg.faults) ∧
      ∀ d pkg', ResolveM.run (·.method decl) file pkg = (.error (.declaration d), pkg') →
        pkg'.faults = pkg.faults ∧ d.LiesIn file decl := by
  have hends : Ends file none (·.LiesIn file decl) pkg (fun _ _ => True) (ResolveM.run (·.method decl) file pkg) :=
    Meanings.method_does (lawful_meanings file _) hdecl horderly.forest hmethod pkg horderly hended.not_awaits
  have hsame {es : List Event} {pkg' : Package} (hwork : Work file none pkg es pkg') : pkg'.faults = pkg.faults := by
    rw [hwork.faults_eq, hwork.eq_nil hended]
    simp
  refine ⟨fun x pkg' hrun => ?_, fun d pkg' hrun => ?_⟩
  · rw [hrun] at hends
    obtain ⟨⟨es, hwork⟩, -⟩ := hends
    exact hsame hwork
  · rw [hrun] at hends
    obtain ⟨⟨es, hwork⟩, hd⟩ := hends
    exact ⟨hsame hwork, hd⟩

/-- A method declaration is looked at, unless it is given up for too many methods. -/
theorem method_taken (hsane : pkg.Sane file start) (hended : pkg.Ended) (hdecl : decl ∈ file.decls)
    (hmethod : Package.isMethod file.tree decl = true) {x : Unit}
    (hrun : ResolveM.isolate (ResolveM.run (·.method decl)) file pkg = (.ok x, pkg')) :
    MethodStep.Taken file start { decl, before := pkg, after := pkg' } ∧ pkg'.Sane file start ∧ pkg'.Ended := by
  let n := pkg.weight file.tree.size (file.tree.size + 1)
  obtain ⟨-, hhonest⟩ := honest_unfold n
  obtain ⟨hsame, -⟩ := (run_same hsane.forest Meanings.silent (Nat.le_refl _)
    fun hclose => Meanings.method_same hclose hsane.forest decl).isolate pkg (Nat.le_refl n)
  have hisolated : Outcome file start [] pkg _ _ :=
    ResolveM.isolate_yields (Meanings.method_yields hhonest hdecl hmethod) pkg hsane hended
  rw [← hsame, hrun] at hisolated
  obtain ⟨hsane', honto, -⟩ := hisolated
  refine ⟨⟨hsane, hended, honto, ?_⟩, hsane', durable_ended hsane.toOrderly honto hended⟩
  obtain ⟨hquiet, hfault⟩ := method_faults hsane.toOrderly hended hdecl hmethod
  have hattempt : ResolveM.attempt (ResolveM.run (·.method decl)) file pkg =
      (.ok (ResolveM.run (·.method decl) file pkg).1, (ResolveM.run (·.method decl) file pkg).2) := rfl
  rw [ResolveM.isolate, ResolveM.run_bind hattempt] at hrun
  rcases hmethodRun : ResolveM.run (·.method decl) file pkg with ⟨failure | ok, pkg₁⟩
  · rw [hmethodRun] at hrun
    cases failure with
    | declaration d =>
        obtain ⟨hfaults, hlies⟩ := hfault d pkg₁ hmethodRun
        cases (Meanings.record_eq d pkg₁).symm.trans hrun
        refine .inr ⟨d, pkg₁, rfl, rfl, ?_, hlies⟩
        show pkg₁.faults ++ #[d] = pkg.faults.push d
        rw [hfaults, Array.push_eq_append]
    | construction fault => cases hrun
  · rw [hmethodRun] at hrun
    cases hrun
    exact .inl ⟨rfl, hquiet _ _ hmethodRun⟩

/-- All method declarations of a file are looked at, and each of them in the package that the one before it left. -/
theorem methodSteps_taken {methods : List NodeId} (hsane : pkg.Sane file start) (hended : pkg.Ended)
    (hmethods : ∀ decl ∈ methods, decl ∈ file.decls ∧ Package.isMethod file.tree decl = true) {x : Unit}
    (hrun : methods.forM (fun decl => ResolveM.isolate (ResolveM.run (·.method decl))) file pkg = (.ok x, pkg')) :
    pkg'.Sane file start ∧ Onto file [] pkg pkg' ∧ pkg.faults.toList ⊆ pkg'.faults.toList ∧
      (∀ s ∈ methodSteps file methods pkg, s.Taken file start ∧ Onto file [] pkg s.before ∧
        Onto file [] s.after pkg' ∧ s.after.faults.toList ⊆ pkg'.faults.toList) ∧
      (methodSteps file methods pkg).Pairwise fun s s' => Onto file [] s.after s'.before := by
  induction methods generalizing pkg with
  | nil =>
      cases hrun
      exact ⟨hsane, .refl _, List.Subset.refl _, nofun, .nil⟩
  | cons decl rest ih =>
      obtain ⟨⟨hdecl, hmethod⟩, hrest⟩ := List.forall_mem_cons.1 hmethods
      have hcons : (decl :: rest).forM (fun decl => ResolveM.isolate (ResolveM.run (·.method decl))) file pkg =
        (ResolveM.isolate (ResolveM.run (·.method decl)) >>= fun _ =>
          rest.forM fun decl => ResolveM.isolate (ResolveM.run (·.method decl))) file pkg := rfl
      rw [hcons, ResolveM.bind_run] at hrun
      match hfirst : ResolveM.isolate (ResolveM.run (·.method decl)) file pkg with
      | (.error failure, pkg₁) =>
          rw [hfirst] at hrun
          cases hrun
      | (.ok y, pkg₁) =>
          rw [hfirst] at hrun
          obtain ⟨htaken, hsane₁, hended₁⟩ := method_taken hsane hended hdecl hmethod hfirst
          obtain ⟨hsane', honto, hfaults, hsteps, hpairs⟩ := ih hsane₁ hended₁ hrest hrun
          have hsteps_eq : methodSteps file (decl :: rest) pkg =
              { decl, before := pkg, after := pkg₁ } :: methodSteps file rest pkg₁ := by
            rw [methodSteps, hfirst]
          have hown := htaken.onto
          rw [hsteps_eq]
          refine ⟨hsane', hown.trans honto, List.Subset.trans htaken.faults_subset hfaults,
            List.forall_mem_cons.2 ⟨⟨htaken, .refl pkg, honto, hfaults⟩, fun s hs => ?_⟩,
            List.pairwise_cons.2 ⟨fun s hs => (hsteps s hs).2.1, hpairs⟩⟩
          obtain ⟨hs, hbefore, hafter⟩ := hsteps s hs
          exact ⟨hs, hown.trans hbefore, hafter⟩

/-! ### Several declarations -/

namespace MethodStep

variable {s s' : MethodStep}

/-- What was done with a declaration that offers a method for a type that may have some: if the receiver was spelled so
before, the declaration is at fault.  Otherwise this is noted, and the method is declared, or refused. -/
theorem Taken.offered (hs : s.Taken file start) (h : s.Offers file name receiver t signature) :
    (s.before.Bars t ∨ (receiver, name) ∈ s.before.methods → ¬ s.Silent) ∧
      (¬ s.before.Bars t → (receiver, name) ∈ s.after.methods) ∧
      (s.Silent → { name, pkgPath := s.before.methodPath name, typ := signature } ∈ s.after.types.declared t) := by
  have hfailed {d : Diagnostic SemanticFault} {pkg : Package}
      (hrun : ResolveM.run (·.method s.decl) file s.before = (.error (.declaration d), pkg)) :
      ¬ s.Silent ∧ s.after.methods = pkg.methods := by
    obtain ⟨hok, -⟩ | ⟨d', pkg', hfault, hafter, hreports, -⟩ := hs.outcome
    · cases hok.symm.trans hrun
    · cases hfault.symm.trans hrun
      exact ⟨hreports.not_silent, by rw [hafter]; rfl⟩
  obtain ⟨hbarred, d, hrun⟩ | ⟨hfree, x, sig, pkg, rfl, hsig, htype, hrun⟩ := h.run
  · have hsilent := (hfailed hrun).1
    exact ⟨fun _ => hsilent, fun hfree => absurd hbarred hfree, fun hquiet => absurd hquiet hsilent⟩
  · have honto : Onto file [] s.before pkg := by
      have hout := type_outcome hs.sane hsig
      rw [htype] at hout
      exact hout.2.1
    by_cases hseen : (receiver, file.tree.literal x) ∈ pkg.methods
    · have hnoted : ∃ d, Meanings.addMethod s.decl x receiver t signature file pkg = (.error (.declaration d), pkg) :=
        Meanings.addMethod_noted hseen
      obtain ⟨d, hnoted⟩ := hnoted
      obtain ⟨hsilent, hmethods⟩ := hfailed (hrun.trans hnoted)
      exact ⟨fun _ => hsilent, fun _ => hmethods ▸ hseen, fun hquiet => absurd hquiet hsilent⟩
    · have hadded : _ ∧ ((Meanings.addMethod s.decl x receiver t signature file pkg).1 = .ok () → _) :=
        Meanings.addMethod_new hseen
      obtain ⟨hnoted, hdeclared⟩ := hadded
      rw [← hrun] at hnoted hdeclared
      have hunseen : ¬ (s.before.Bars t ∨ (receiver, file.tree.literal x) ∈ s.before.methods) := fun h =>
        h.elim hfree fun hmem => hseen (honto.methods hmem)
      have hpath : pkg.methodPath (file.tree.literal x) = s.before.methodPath (file.tree.literal x) := by
        rw [Package.methodPath, honto.onward.steady.path_eq]
        rfl
      obtain ⟨hok, -⟩ | ⟨d, pkg', hfault, -⟩ := hs.outcome
      · rw [hok, hpath] at hdeclared
        rw [hok] at hnoted
        exact ⟨fun h => absurd h hunseen, fun _ => hnoted, fun _ => hdeclared rfl⟩
      · obtain ⟨hsilent, hmethods⟩ := hfailed hfault
        rw [hfault] at hnoted
        exact ⟨fun _ => hsilent, fun _ => hmethods ▸ hnoted, fun hquiet => absurd hquiet hsilent⟩

/-- What a receiver denotes was declared. -/
theorem Offers.denoted (h : s.Offers file name receiver t signature) : s.before.denoted? receiver = some t := by
  obtain ⟨recv, base, -, -, rfl, ht⟩ := h.received
  rw [Meanings.receiverType, ResolveM.run_bind (ResolveM.get_run file _)] at ht
  rw [Package.denoted?]
  cases hentry : s.before.declared? (file.tree.literal base) with
  | none =>
      rw [hentry] at ht
      dsimp only at ht
      split at ht
      · cases ht
      · cases ht
  | some entry =>
      rw [hentry] at ht
      dsimp only at ht
      cases hfound : (if entry.role = .type then (s.before.objects.get? entry.name).bind Object.typ else none).filter
          fun t => (s.before.types.pkgPath? t).isSome with
      | none =>
          rw [hfound] at ht
          cases ht
      | some u =>
          rw [hfound] at ht
          cases ht
          exact (Option.filter_eq_some_iff.1 hfound).1

end MethodStep

/-- A name that denotes a type goes on to denote it when all declarations have been resolved. -/
theorem Onto.denoted? (h : Onto file [] pkg pkg') (horderly : pkg.Orderly file) (hended : pkg.Ended) (name : String) :
    pkg'.denoted? name = pkg.denoted? name := by
  rw [Package.denoted?, Package.denoted?, Package.declared?, h.onward.steady.scope_eq]
  show (pkg.declared? name).bind _ = (pkg.declared? name).bind _
  cases hentry : pkg.declared? name with
  | none => rfl
  | some entry =>
      have hkept := h.still entry (horderly.declared name entry hentry) (fun hpending => hended _ (.inl hpending))
        List.not_mem_nil
      rw [Option.bind_some, Option.bind_some, hkept]

/-- The type that a name denotes is one that the table knows. -/
theorem Package.Sane.knows_denoted (h : pkg.Sane file start) (hname : pkg.denoted? name = some t) :
    pkg.types.Knows t := by
  obtain ⟨entry, -, hentry⟩ := Option.bind_eq_some_iff.1 hname
  split at hentry
  · obtain ⟨obj, hobj, htyp⟩ := Option.bind_eq_some_iff.1 hentry
    exact h.known _ obj t hobj htyp
  · cases hentry

/-- Types on which no method can be declared stay so. -/
theorem Onto.bars (h : Onto file [] pkg pkg') (horderly : pkg.Orderly file) (hbars : pkg.Bars t) : pkg'.Bars t :=
  hbars.imp (fun hkind => (h.grows horderly).kind_eq horderly.regular.toSound hkind (by decide))
    fun hkind => (h.grows horderly).kind_eq horderly.regular.toSound hkind (by decide)

/-- What a method that is offered is declared on, and that it is there for good if nothing was reported. -/
theorem MethodStep.Taken.lasting {s : MethodStep} (hs : s.Taken file start)
    (h : s.Offers file name receiver t signature) (honto : Onto file [] s.after pkg') :
    pkg'.denoted? receiver = some t ∧
      (s.Silent → { name, pkgPath := pkg'.methodPath name, typ := signature } ∈ pkg'.types.declared t) := by
  have hall : Onto file [] s.before pkg' := hs.onto.trans honto
  have hdenoted : s.before.denoted? receiver = some t := h.denoted
  refine ⟨(hall.denoted? hs.sane.toOrderly hs.ended receiver).trans hdenoted, fun hsilent => ?_⟩
  have hpath : pkg'.methodPath name = s.before.methodPath name := by
    rw [Package.methodPath, hall.onward.steady.path_eq]
    rfl
  have hgrows : Grows s.before.types s.after.types := hs.onto.grows hs.sane.toOrderly
  have hknown : s.before.types.Knows t := hs.sane.knows_denoted hdenoted
  rw [hpath]
  exact honto.onward.steady.reaches.declared_subset hgrows.sound (hgrows.knows hknown) ((hs.offered h).2.2 hsilent)

/-- Looking for types that contain themselves takes no fault away. -/
theorem checkFinite_faults {entries : List Entry} (hentries : ∀ entry ∈ entries, entry.Fits file)
    (hsane : pkg.Sane file start) (hended : pkg.Ended) {x : Unit}
    (hrun : entries.forM ResolveM.checkFinite file pkg = (.ok x, pkg')) :
    Onto file [] pkg pkg' ∧ pkg.faults.toList ⊆ pkg'.faults.toList := by
  have hout : Outcome file start [] pkg _ _ := Yields.forEach entries durable_true (fun _ => durable_true)
    (fun entry _ => ResolveM.checkFinite_yields entry) pkg hsane trivial
  rw [hrun] at hout
  refine ⟨hout.2.1, ?_⟩
  obtain ⟨blamed, pkg'', hpass, hreviews⟩ | hover := reviews_forM Entry.spec entries
    (fun entry hentry => checkFinite_examines (hentries entry hentry)) hsane.toOrderly hended
  · cases hpass.symm.trans hrun
    rw [hreviews.faults_eq hended, Array.toList_append]
    exact List.subset_append_left _ _
  · obtain ⟨⟨n, hn⟩, -⟩ := hover
    rw [hrun] at hn
    cases hn

/-- An action that has an answer, and what is done next. -/
theorem ResolveM.ok_of_bind {α β : Type} {a : ResolveM α} {f : α → ResolveM β} {y : β}
    (h : (a >>= f) file pkg = (.ok y, pkg')) :
    ∃ x pkg₁, a file pkg = (.ok x, pkg₁) ∧ f x file pkg₁ = (.ok y, pkg') := by
  rw [bind_run] at h
  match hrun : a file pkg with
  | (.ok x, pkg₁) =>
      rw [hrun] at h
      exact ⟨x, pkg₁, rfl, h⟩
  | (.error failure, pkg₁) =>
      rw [hrun] at h
      cases h

/-- If resolution comes to its end, so do its three passes, and after the first one the package is in order. -/
theorem passes_of_resolveDecls {decls : List NodeId} (hpkg : pkg.Session) (hfile : file.Parsed)
    (hdecls : ∀ decl ∈ decls, decl ∈ file.decls) (hok : pkg.resolveDecls file decls = (.ok (), pkg')) :
    let entries := (pkg.collected file decls).tasks.map Task.entry
    ∃ pkg₂ pkg₃, entries.forM (fun entry => ResolveM.run (·.resolve entry)) file (pkg.collected file decls) =
        (.ok (), pkg₂) ∧
      (decls.filter (Package.isMethod file.tree)).forM
        (fun decl => ResolveM.isolate (ResolveM.run (·.method decl))) file pkg₂ = (.ok (), pkg₃) ∧
      entries.forM ResolveM.checkFinite file pkg₃ = (.ok (), pkg') ∧ pkg₂.Sane file pkg.types ∧ pkg₂.Ended := by
  intro entries
  have hgathered := Package.gathered_collected hpkg.ready hfile.forest hdecls
  obtain ⟨x, pkg₂, hfirst, hrest⟩ := ResolveM.ok_of_bind (show
    (entries.forM (fun entry => ResolveM.run (·.resolve entry)) >>= fun _ =>
      (decls.filter (Package.isMethod file.tree)).forM (fun decl => ResolveM.isolate (ResolveM.run (·.method decl))) >>=
        fun _ => entries.forM ResolveM.checkFinite) file (pkg.collected file decls) = (.ok (), pkg') from hok)
  obtain ⟨y, pkg₃, hmethods, hfinite⟩ := ResolveM.ok_of_bind hrest
  refine ⟨pkg₂, pkg₃, hfirst, hmethods, hfinite, declarations_sane hpkg hfile hdecls hfirst, ?_⟩
  obtain ⟨es, pkg', hrun, hwork, hnot⟩ | ⟨⟨n, hover⟩, -⟩ :=
    declarations_end entries hgathered.listed hgathered.toOrderly
  · cases hrun.symm.trans hfirst
    exact (hgathered.resolved hwork hnot).1
  · rw [hfirst] at hover
    cases hover

/-- Of several declarations of a method.  All method declarations of a file are looked at in turn, after the other
declarations, and each of them is silent or reports a fault that lies in it.  If two of them offer a method of the same
name on the same type, then the later one is reported if its receiver is spelled as that of the earlier one; and if both
are silent they have the same signature.  What is offered without a fault is a method of the type in the end, and no
type has two methods of one name. -/
theorem methods_declared_once {decls : List NodeId} (hpkg : pkg.Session) (hfile : file.Parsed)
    (hdecls : ∀ decl ∈ decls, decl ∈ file.decls) (hok : pkg.resolveDecls file decls = (.ok (), pkg')) :
    ∃ pkg₂, ((pkg.collected file decls).tasks.map Task.entry).forM (fun entry => ResolveM.run (·.resolve entry)) file
        (pkg.collected file decls) = (.ok (), pkg₂) ∧
      let steps := methodSteps file (decls.filter (Package.isMethod file.tree)) pkg₂
      (∀ s ∈ steps, s.Silent ∨ ∃ d ∈ pkg'.faults, d.LiesIn file s.decl ∧ s.Reports d) ∧
      (∀ s ∈ steps, ∀ name receiver t signature, s.Offers file name receiver t signature →
        pkg'.denoted? receiver = some t ∧
        (s.Silent → { name, pkgPath := pkg'.methodPath name, typ := signature } ∈ pkg'.types.declared t)) ∧
      (∀ t, Distinct (pkg'.types.declared t)) ∧
      steps.Pairwise fun s s' => ∀ name receiver receiver' t signature signature',
        s.Offers file name receiver t signature → s'.Offers file name receiver' t signature' →
        (receiver = receiver' → ¬ s'.Silent) ∧ (s.Silent → s'.Silent → signature = signature') := by
  obtain ⟨pkg₂, pkg₃, hfirst, hmethods, hfinite, hsane₂, hended₂⟩ := passes_of_resolveDecls hpkg hfile hdecls hok
  obtain ⟨hsane₃, honto₃, -, hsteps, hpairs⟩ := methodSteps_taken hsane₂ hended₂ (fun decl hdecl =>
    ⟨hdecls decl (List.mem_filter.1 hdecl).1, (List.mem_filter.1 hdecl).2⟩) hmethods
  have hlisted := (Package.gathered_collected hpkg.ready hfile.forest hdecls).listed
  obtain ⟨honto, hfaults⟩ :=
    checkFinite_faults hlisted hsane₃ (durable_ended hsane₂.toOrderly honto₃ hended₂) hfinite
  have hdistinct : ∀ t, Distinct (pkg'.types.declared t) := by
    obtain ⟨target, hnew⟩ := hpkg.reachable
    obtain ⟨-, hreaches⟩ := resolveDecls_reaches hpkg hfile hdecls
    rw [hok] at hreaches
    exact TypeTable.distinct_declared ⟨target, hnew.trans hreaches⟩
  -- What is offered by a step is there in the end.
  have hoffer {s : MethodStep} {name receiver : String} {t signature : TypeId}
      (hs : s ∈ methodSteps file (decls.filter (Package.isMethod file.tree)) pkg₂)
      (h : s.Offers file name receiver t signature) :
      pkg'.denoted? receiver = some t ∧
        (s.Silent → { name, pkgPath := pkg'.methodPath name, typ := signature } ∈ pkg'.types.declared t) := by
    obtain ⟨htaken, -, hafter, -⟩ := hsteps s hs
    exact htaken.lasting h (hafter.trans honto)
  refine ⟨pkg₂, hfirst, fun s hs => ?_, fun s hs _ _ _ _ h => hoffer hs h, hdistinct, ?_⟩
  · obtain ⟨htaken, -, -, hkept⟩ := hsteps s hs
    obtain ⟨-, hsilent⟩ | ⟨d, -, -, -, hreports, hlies⟩ := htaken.outcome
    · exact .inl hsilent
    · refine .inr ⟨d, Array.mem_def.2 (hfaults (hkept ?_)), hlies, hreports⟩
      rw [hreports, Array.toList_push]
      exact List.mem_append_right _ (List.mem_singleton_self d)
  · refine hpairs.imp_of_mem fun {s s'} hs hs' hbetween name receiver receiver' t signature signature' h h' => ⟨?_, ?_⟩
    · rintro rfl
      obtain ⟨hnot, -, -⟩ := (hsteps s' hs').1.offered h'
      refine hnot ?_
      by_cases hbars : s'.before.Bars t
      · exact .inl hbars
      · refine .inr (hbetween.methods (((hsteps s hs).1.offered h).2.1 fun hbars' => hbars ?_))
        obtain ⟨htaken, -⟩ := hsteps s hs
        exact (htaken.onto.trans hbetween).bars htaken.sane.toOrderly hbars'
    · intro hsilent hsilent'
      have hmem := (hoffer hs h).2 hsilent
      have hmem' := (hoffer hs' h').2 hsilent'
      exact congrArg Method.typ ((hdistinct t).eq_of_sameName hmem hmem' (by simp [Method.sameName]))

/-- One method, declared again with the receiver spelled as before, and then with an alias of it as the receiver. -/
theorem methods_declared_once_alias :
    let file := ParsedFile.ofString "a.go"
      "package p\ntype T int\ntype A = T\nfunc (T) M() \x7b\x7d\nfunc (*T) M() \x7b\x7d\nfunc (A) M(int) \x7b\x7d\n"
    let pkg := Package.new (TypeTable.new .amd64)
    (pkg.resolveFile file).2.faults.map (·.cause) =
        #[.methodRedeclared "T" "M", .construction (.duplicateMethod "M")] ∧
      ∃ pkg₂, ((pkg.collected file file.decls).tasks.map Task.entry).forM (fun entry => ResolveM.run (·.resolve entry))
          file (pkg.collected file file.decls) = (.ok (), pkg₂) ∧
        let steps := methodSteps file (file.decls.filter (Package.isMethod file.tree)) pkg₂
        steps.Pairwise fun s s' => ∀ name receiver receiver' t signature signature',
          s.Offers file name receiver t signature → s'.Offers file name receiver' t signature' →
          (receiver = receiver' → ¬ s'.Silent) ∧ (s.Silent → s'.Silent → signature = signature') := by
  intro file pkg
  have hfile : file.Parsed := ParsedFile.parsed_ofString _ _
  have ⟨hok, hfaults⟩ : (pkg.resolveFile file).1.toBool = true ∧ (pkg.resolveFile file).2.faults.map (·.cause) =
      #[.methodRedeclared "T" "M", .construction (.duplicateMethod "M")] := by
    decide +kernel
  refine ⟨hfaults, ?_⟩
  match hrun : pkg.resolveFile file with
  | (.ok (), pkg') =>
      obtain ⟨pkg₂, hfirst, -, -, -, hpairs⟩ := methods_declared_once (.new ⟨.amd64, .refl⟩) hfile (fun _ h => h) hrun
      exact ⟨pkg₂, hfirst, hpairs⟩
  | (.error failure, pkg') =>
      rw [hrun] at hok
      cases hok

/-- By an alias, a method can be declared again with the same signature: nothing is reported, and both declarations have
an object. -/
theorem methods_accepted_twice :
    let file := ParsedFile.ofString "a.go"
      "package p\ntype T int\ntype A = T\nfunc (T) M() \x7b\x7d\nfunc (A) M() \x7b\x7d\n"
    let pkg := ((Package.new (TypeTable.new .amd64)).resolveFile file).2
    let methods := file.decls.filter (Package.isMethod file.tree)
    methods.map file.tree.render =
        ["(func (PARAMS (FIELD nil T nil)) M (func (PARAMS) (RESULTS)) (BLOCK))",
          "(func (PARAMS (FIELD nil A nil)) M (func (PARAMS) (RESULTS)) (BLOCK))"] ∧
      pkg.denoted? "A" = pkg.denoted? "T" ∧ (pkg.denoted? "T").isSome = true ∧ pkg.faults = #[] ∧
      ∀ decl ∈ methods, ((file.tree.part? decl 1).bind pkg.objects.get?).map (·.role) = some .function := by
  decide +kernel

end GoSource
