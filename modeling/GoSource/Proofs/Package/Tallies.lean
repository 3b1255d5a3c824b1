import GoSource.Proofs.Package.Work
import GoSource.Proofs.Typing.Mimics

/-!
# Packages under other handles

Two packages can hold the same entities over different tables, where one table mirrors the other.

* **`World.TwinObject`**: entities that differ in the handles of their types only.
* **`Pairs start base w pkg pkg'`**: packages that correspond in the world `w`.
* **`Tallies c w V a b`**: from packages that correspond, the actions `a` and `b` do the same.
* One lemma for each way of putting actions together, and for each of the simplest ones.
-/

namespace GoSource

open TypeTable

variable {w w' : World} {t a : TypeId}

/-! ### Packages that correspond -/

section Options

variable {α β γ δ : Type} {V : α → β → Prop} {W : γ → δ → Prop} {x : Option α} {y : Option β}

theorem rel_map {f : α → γ} {g : β → δ} (h : Option.Rel V x y) (hfg : ∀ v v', V v v' → W (f v) (g v')) :
    Option.Rel W (x.map f) (y.map g) := by
  cases h with
  | none => exact .none
  | some h => exact .some (hfg _ _ h)

theorem rel_imp {V' : α → β → Prop} (h : Option.Rel V x y) (hV : ∀ v v', V v v' → V' v v') : Option.Rel V' x y := by
  cases h with
  | none => exact .none
  | some h => exact .some (hV _ _ h)

theorem rel_filter {p : α → Bool} {q : β → Bool} (h : Option.Rel V x y) (hpq : ∀ v v', V v v' → q v' = p v) :
    Option.Rel V (x.filter p) (y.filter q) := by
  cases h with
  | none => exact .none
  | @some v v' h =>
      rw [Option.filter_some, Option.filter_some, hpq v v' h]
      split
      · exact .some h
      · exact .none

theorem rel_cases (h : Option.Rel V x y) :
    (x = none ∧ y = none) ∨ ∃ v v', x = some v ∧ y = some v' ∧ V v v' := by
  cases h with
  | none => exact .inl ⟨rfl, rfl⟩
  | some h => exact .inr ⟨_, _, rfl, rfl, h⟩

end Options

/-- Entities that correspond: the same but for the handle of the type. -/
def World.TwinObject (w : World) (obj obj' : Object) : Prop :=
  ∃ typ, Option.Rel w.Twin obj.typ typ ∧ obj' = { obj with typ }

theorem World.TwinObject.later {obj obj' : Object} (h : w.TwinObject obj obj') (hlater : w.Later w') :
    w'.TwinObject obj obj' := by
  obtain ⟨typ, htyp, rfl⟩ := h
  exact ⟨typ, rel_imp htyp fun _ _ h => h.later hlater, rfl⟩

/-- Packages that correspond: the same but for the handles of types. -/
structure Pairs (start : Nat) (base : TypeId → Prop) (w : World) (pkg pkg' : Package) : Prop where
  types : Matches start base w pkg.types pkg'.types
  outer : List.Forall₂ w.TwinObject pkg.outer pkg'.outer
  path_eq : pkg'.path = pkg.path
  scope_eq : pkg'.scope = pkg.scope
  tasks_eq : pkg'.tasks = pkg.tasks
  objects : ∀ id, Option.Rel w.TwinObject (pkg.objects.get? id) (pkg'.objects.get? id)
  methods_eq : pkg'.methods = pkg.methods
  faults_eq : pkg'.faults = pkg.faults

variable {start : Nat} {base : TypeId → Prop} {pkg pkg' : Package}

namespace Pairs

theorem mirrors (h : Pairs start base w pkg pkg') : Mirrors start base w.names w.types pkg'.types := by
  have hmirrors := h.types.2
  rw [h.types.1] at hmirrors
  exact hmirrors

theorem sound (h : Pairs start base w pkg pkg') : w.types.Sound :=
  h.mirrors.faithful.toSound

/-- Predeclared types, and the invalid one, have the same handles everywhere. -/
theorem twin_invalid (h : Pairs start base w pkg pkg') : w.Twin invalid invalid :=
  ⟨h.mirrors.blank.1, h.mirrors.invalid_eq.symm⟩

theorem twin_basic (h : Pairs start base w pkg pkg') (k : Kind) : w.Twin (basic k) (basic k) :=
  (h.mirrors.basic_eq k).imp id Eq.symm

/-- Other tables, in a later world. -/
theorem retyped (h : Pairs start base w pkg pkg') (hlater : w.Later w') {tt tt' : TypeTable}
    (htypes : Matches start base w' tt tt') : Pairs start base w' { pkg with types := tt } { pkg' with types := tt' } where
  types := htypes
  outer := h.outer.imp fun _ _ h => h.later hlater
  path_eq := h.path_eq
  scope_eq := h.scope_eq
  tasks_eq := h.tasks_eq
  objects id := rel_imp (h.objects id) fun _ _ h => h.later hlater
  methods_eq := h.methods_eq
  faults_eq := h.faults_eq

/-- Corresponding entities under the same node. -/
theorem insert (h : Pairs start base w pkg pkg') {obj obj' : Object} (hobj : w.TwinObject obj obj') (node id : NodeId) :
    Option.Rel w.TwinObject ((pkg.objects.insert node obj).get? id) ((pkg'.objects.insert node obj').get? id) := by
  by_cases hid : id = node
  · rw [hid, NodeMap.get?_insert_self, NodeMap.get?_insert_self]
    exact .some hobj
  · rw [NodeMap.get?_insert_of_ne _ _ hid, NodeMap.get?_insert_of_ne _ _ hid]
    exact h.objects id

theorem modify (h : Pairs start base w pkg pkg') {f g : Object → Object}
    (hfg : ∀ obj obj', w.TwinObject obj obj' → w.TwinObject (f obj) (g obj')) (node id : NodeId) :
    Option.Rel w.TwinObject ((pkg.objects.modify node f).get? id) ((pkg'.objects.modify node g).get? id) := by
  by_cases hid : id = node
  · rw [hid, NodeMap.get?_modify_self, NodeMap.get?_modify_self]
    exact rel_map (h.objects node) hfg
  · rw [NodeMap.get?_modify_of_ne _ _ hid, NodeMap.get?_modify_of_ne _ _ hid]
    exact h.objects id

theorem declared?_eq (h : Pairs start base w pkg pkg') (name : String) : pkg'.declared? name = pkg.declared? name := by
  rw [Package.declared?, h.scope_eq, Package.declared?]

theorem predeclared? (h : Pairs start base w pkg pkg') (name : String) :
    Option.Rel w.TwinObject (pkg.predeclared? name) (pkg'.predeclared? name) := by
  rw [Package.predeclared?, Package.predeclared?]
  generalize pkg.outer = outer, pkg'.outer = outer', h.outer = houter
  induction houter with
  | nil => exact .none
  | @cons obj obj' _ _ hobj _ ih =>
      have hname : obj'.name = obj.name := by
        obtain ⟨typ, -, rfl⟩ := hobj
        rfl
      rw [List.find?_cons, List.find?_cons, hname]
      split
      · exact .some hobj
      · exact ih

theorem progress?_eq (h : Pairs start base w pkg pkg') (spec : NodeId) : pkg'.progress? spec = pkg.progress? spec := by
  rw [Package.progress?, h.tasks_eq, Package.progress?]

theorem weight_eq (h : Pairs start base w pkg pkg') (size rank : Nat) : pkg'.weight size rank = pkg.weight size rank := by
  rw [Package.weight, Package.pendingCount, h.tasks_eq, Package.weight, Package.pendingCount]

theorem methodPath_eq (h : Pairs start base w pkg pkg') (name : String) : pkg'.methodPath name = pkg.methodPath name := by
  rw [Package.methodPath, h.path_eq, Package.methodPath]

theorem isTaken_eq (h : Pairs start base w pkg pkg') (name : String) : pkg'.isTaken name = pkg.isTaken name := by
  rw [Package.isTaken, h.declared?_eq, Package.isTaken]

theorem report (h : Pairs start base w pkg pkg') (file : ParsedFile) (node : NodeId) (cause : SemanticFault) :
    Pairs start base w (pkg.report file node cause) (pkg'.report file node cause) :=
  { h with faults_eq := by rw [Package.report, h.faults_eq, Package.report] }

/-- Corresponding entities get the same name. -/
theorem enter (h : Pairs start base w pkg pkg') (anonymous : Bool) (entry : Entry) {obj obj' : Object}
    (hobj : w.TwinObject obj obj') :
    Pairs start base w (pkg.enter anonymous entry obj) (pkg'.enter anonymous entry obj') := by
  obtain ⟨typ, htyp, rfl⟩ := hobj
  refine { h with scope_eq := ?_, objects := h.insert ⟨typ, htyp, rfl⟩ entry.name }
  rw [Package.enter, h.scope_eq, Package.enter]

theorem schedule (h : Pairs start base w pkg pkg') (entry : Entry) :
    Pairs start base w (pkg.schedule entry) (pkg'.schedule entry) := by
  rw [Package.schedule, Package.schedule, h.progress?_eq]
  split
  · exact h
  · exact { h with tasks_eq := by rw [h.tasks_eq] }

/-- A new declared type. -/
theorem newType (h : Pairs start base w pkg pkg') (name : String) :
    ∃ w', Pairs start base w' (pkg.newType name).2 (pkg'.newType name).2 ∧
      w'.Twin (pkg.newType name).1 (pkg'.newType name).1 := by
  obtain ⟨w', hlater, htypes, ht⟩ := h.types.newNamed pkg.path name
  have hrun : pkg'.newType name = ((TypeTable.newNamed pkg.path name pkg'.types).1,
      { pkg' with types := (TypeTable.newNamed pkg.path name pkg'.types).2 }) := by
    rw [Package.newType, h.path_eq]
    rfl
  rw [hrun]
  exact ⟨w', h.retyped hlater htypes, ht⟩

end Pairs

/-! ### Actions that do the same -/

/-- The file that is resolved a second time, and what the larger table was built from before. -/
structure Rerun where
  file : ParsedFile
  start : Nat
  base : TypeId → Prop

/-- From packages that correspond, the actions do the same. -/
def Tallies {α β : Type} (c : Rerun) (w : World) (V : World → α → β → Prop) (x : ResolveM α) (y : ResolveM β) : Prop :=
  Mimics (Pairs c.start c.base) w V (x c.file) (y c.file)

namespace Tallies

variable {c : Rerun} {α β γ δ : Type} {V : World → α → β → Prop} {W : World → γ → δ → Prop} {x : ResolveM α}
  {y : ResolveM β}

theorem pure {v : α} {v' : β} (h : V w v v') : Tallies c w V (Pure.pure v) (Pure.pure v') :=
  Mimics.pure h

theorem bind {k : α → ResolveM γ} {k' : β → ResolveM δ} (h : Tallies c w V x y)
    (hk : ∀ w', w.Later w' → ∀ v v', V w' v v' → Tallies c w' W (k v) (k' v')) : Tallies c w W (x >>= k) (y >>= k') :=
  Mimics.bind h hk

theorem map {f : α → γ} {g : β → δ} (h : Tallies c w V x y)
    (hfg : ∀ w', w.Later w' → ∀ v v', V w' v v' → W w' (f v) (g v')) : Tallies c w W (f <$> x) (g <$> y) := by
  rw [map_eq_pure_bind, map_eq_pure_bind]
  exact h.bind fun w' hlater v v' hv => .pure (hfg w' hlater v v' hv)

theorem imp {V' : World → α → β → Prop} (h : Tallies c w V x y) (hV : ∀ w' v v', V w' v v' → V' w' v v') :
    Tallies c w V' x y :=
  Mimics.imp h hV

theorem ite {p : Prop} [Decidable p] {x' : ResolveM α} {y' : ResolveM β} (h : p → Tallies c w V x y)
    (h' : ¬p → Tallies c w V x' y') : Tallies c w V (if p then x else x') (if p then y else y') := by
  by_cases hp : p
  · rw [if_pos hp, if_pos hp]
    exact h hp
  · rw [if_neg hp, if_neg hp]
    exact h' hp

theorem throw (failure : Failure) :
    Tallies c w V (MonadExcept.throw failure : ResolveM α) (MonadExcept.throw failure : ResolveM β) :=
  Mimics.throw failure

theorem fail (id : NodeId) (cause : SemanticFault) :
    Tallies c w V (ResolveM.fail id cause : ResolveM α) (ResolveM.fail id cause : ResolveM β) :=
  Mimics.throw _

/-- What follows a failure is not done. -/
theorem fail_bind {id : NodeId} {cause : SemanticFault} {k : γ → ResolveM α} {k' : γ → ResolveM β} :
    Tallies c w V (ResolveM.fail id cause >>= k) (ResolveM.fail id cause >>= k') :=
  fun _ _ hpkg => ⟨w, .refl w, hpkg, .error _⟩

/-- A condition whose violation ends the work. -/
theorem check {p : Prop} [Decidable p] {id : NodeId} {cause : SemanticFault} {k : Unit → ResolveM α}
    {k' : Unit → ResolveM β} (h : ¬p → Tallies c w V (k ()) (k' ())) :
    Tallies c w V (if p then ResolveM.fail id cause >>= k else k ())
      (if p then ResolveM.fail id cause >>= k' else k' ()) :=
  ite (fun _ => fail_bind) h

theorem tree {k : Tree → ResolveM α} {k' : Tree → ResolveM β} (h : Tallies c w V (k c.file.tree) (k' c.file.tree)) :
    Tallies c w V (ResolveM.tree >>= k) (ResolveM.tree >>= k') :=
  h

/-- What holds of every state may be used. -/
theorem assume (h : ∀ pkg pkg', Pairs c.start c.base w pkg pkg' → Tallies c w V x y) : Tallies c w V x y :=
  fun pkg pkg' hpkg => h pkg pkg' hpkg pkg pkg' hpkg

theorem get {k : Package → ResolveM α} {k' : Package → ResolveM β}
    (h : ∀ pkg pkg', Pairs c.start c.base w pkg pkg' → Tallies c w V (k pkg) (k' pkg')) :
    Tallies c w V (MonadState.get >>= k) (MonadState.get >>= k') :=
  fun pkg pkg' hpkg => h pkg pkg' hpkg pkg pkg' hpkg

theorem types {k : TypeTable → ResolveM α} {k' : TypeTable → ResolveM β}
    (h : ∀ tt, Mirrors c.start c.base w.names w.types tt → Tallies c w V (k w.types) (k' tt)) :
    Tallies c w V (ResolveM.types >>= k) (ResolveM.types >>= k') := by
  intro pkg pkg' hpkg
  obtain ⟨htypes, hmirrors⟩ := hpkg.types
  rw [htypes] at hmirrors
  have hrun := h pkg'.types hmirrors pkg pkg' hpkg
  rw [← htypes] at hrun
  exact hrun

theorem part {id : NodeId} {place : Nat} {k : NodeId → ResolveM α} {k' : NodeId → ResolveM β}
    (h : ∀ child, Tallies c w V (k child) (k' child)) :
    Tallies c w V (ResolveM.part id place >>= k) (ResolveM.part id place >>= k') := by
  intro pkg pkg' hpkg
  have htree (pkg : Package) : ResolveM.tree c.file pkg = (.ok c.file.tree, pkg) := rfl
  rw [ResolveM.bind_run, ResolveM.bind_run, ResolveM.part, ResolveM.bind_run, ResolveM.bind_run, htree, htree]
  dsimp only
  cases c.file.tree.part? id place with
  | none => exact ⟨w, .refl w, hpkg, .error _⟩
  | some child => exact h child pkg pkg' hpkg

/-- A change of the state that keeps packages in step. -/
theorem modify {f g : Package → Package}
    (h : ∀ pkg pkg', Pairs c.start c.base w pkg pkg' → Pairs c.start c.base w (f pkg) (g pkg')) :
    Tallies c w (fun _ => Eq) (modify f : ResolveM Unit) (modify g : ResolveM Unit) :=
  fun pkg pkg' hpkg => ⟨w, .refl w, h pkg pkg' hpkg, .ok rfl⟩

theorem update (node : NodeId) {f g : Object → Object}
    (hfg : ∀ obj obj', w.TwinObject obj obj' → w.TwinObject (f obj) (g obj')) :
    Tallies c w (fun _ => Eq) (ResolveM.update node f) (ResolveM.update node g) :=
  modify fun _ _ h => { h with objects := h.modify hfg node }

theorem record (d : Diagnostic SemanticFault) : Tallies c w (fun _ => Eq) (ResolveM.record d) (ResolveM.record d) :=
  modify fun _ _ h => { h with faults_eq := by rw [h.faults_eq] }

theorem onTypes {action : TypeM α} {action' : TypeM β} (h : Mimics (Matches c.start c.base) w V action action') :
    Tallies c w (fun w' => Agree (V w')) (ResolveM.onTypes action) (ResolveM.onTypes action') := by
  intro pkg pkg' hpkg
  obtain ⟨w', hlater, htypes, hagree⟩ := h pkg.types pkg'.types hpkg.types
  exact ⟨w', hlater, hpkg.retyped hlater htypes, .ok hagree⟩

theorem build {action : TypeM α} {action' : TypeM β} (h : Mimics (Matches c.start c.base) w V action action') :
    Tallies c w V (ResolveM.build action) (ResolveM.build action') := by
  refine (onTypes h).bind fun w' _ outcome outcome' hagree => ?_
  cases hagree with
  | ok hv => exact .pure hv
  | error fault => exact .throw _

theorem buildAt (id : NodeId) {action : TypeM α} {action' : TypeM β}
    (h : Mimics (Matches c.start c.base) w V action action') :
    Tallies c w V (ResolveM.buildAt id action) (ResolveM.buildAt id action') := by
  refine (onTypes h).bind fun w' _ outcome outcome' hagree => ?_
  cases hagree with
  | ok hv => exact .pure hv
  | error fault =>
      dsimp only
      split
      · exact .fail id _
      · exact .fail id _
      · exact .fail id _
      · exact .fail id _
      · exact .throw _

theorem attempt (h : Tallies c w V x y) :
    Tallies c w (fun w' => Agree (V w')) (ResolveM.attempt x) (ResolveM.attempt y) := by
  intro pkg pkg' hpkg
  obtain ⟨w', hlater, hpkg', hagree⟩ := h pkg pkg' hpkg
  exact ⟨w', hlater, hpkg', .ok hagree⟩

theorem isolate {x y : ResolveM Unit} (h : Tallies c w (fun _ => Eq) x y) :
    Tallies c w (fun _ => Eq) (ResolveM.isolate x) (ResolveM.isolate y) := by
  refine h.attempt.bind fun w' _ outcome outcome' hagree => ?_
  cases hagree with
  | ok heq => exact .pure rfl
  | error failure =>
      cases failure with
      | declaration d => exact .record d
      | construction fault => exact .throw _

theorem forM {f g : γ → ResolveM Unit} (vs : List γ)
    (h : ∀ w', w.Later w' → ∀ v ∈ vs, Tallies c w' (fun _ => Eq) (f v) (g v)) :
    Tallies c w (fun _ => Eq) (vs.forM f) (vs.forM g) := by
  induction vs generalizing w with
  | nil => exact .pure rfl
  | cons v vs ih =>
      refine (h w (.refl w) v List.mem_cons_self).bind fun w' hlater _ _ _ => ih fun w'' hlater' u hu => ?_
      exact h w'' (hlater.trans hlater') u (List.mem_cons_of_mem _ hu)

end Tallies

end GoSource
