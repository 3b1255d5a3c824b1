import GoSource.Proofs.Package.Entities

/-!
# What actions answer

An action of resolution leaves a sane package sane.  It takes nothing from any entity, and the entities of declarations
that are under way are left alone by all others.

* **`Onto`**: what an action does to a package.  A condition that is **`Durable`** can be used after the action as well.
* **`Yields`**: what an action does in a sane package, with a condition before and one after.
* One lemma for each way of composing actions.
-/

namespace GoSource

open TypeTable

variable {α β : Type} {file : ParsedFile} {start : TypeTable} {own : List NodeId} {pkg pkg' pkg'' : Package}

/-! ### Conditions -/

/-- What an action does that gives something to the names `own`: no entity loses anything, and those of declarations
that have been begun stay as they are, except for those of `own`.  A method that was declared is not forgotten. -/
structure Onto (file : ParsedFile) (own : List NodeId) (pkg pkg' : Package) : Prop where
  onward : Onward pkg pkg'
  gains : ∀ entry : Entry, entry.Fits file → ∀ obj, pkg.objects.get? entry.name = some obj →
    ∃ obj', pkg'.objects.get? entry.name = some obj' ∧ obj.Gains obj'
  still : ∀ entry : Entry, entry.Fits file → pkg.progress? entry.spec ≠ some .pending → entry.name ∉ own →
    pkg'.objects.get? entry.name = pkg.objects.get? entry.name
  flawed : pkg.Flawed file → pkg'.Flawed file
  methods : pkg.methods ⊆ pkg'.methods

namespace Onto

theorem of_objects_eq (honward : Onward pkg pkg') (hobjects : pkg'.objects = pkg.objects)
    (hflawed : pkg.Flawed file → pkg'.Flawed file) (hmethods : pkg.methods ⊆ pkg'.methods) :
    Onto file own pkg pkg' := by
  refine ⟨honward, fun entry _ obj hobj => ⟨obj, ?_, .refl obj⟩, fun entry _ _ _ => ?_, hflawed, hmethods⟩
  · rwa [hobjects]
  · rw [hobjects]

theorem refl (pkg : Package) : Onto file own pkg pkg :=
  .of_objects_eq (.refl pkg) rfl (fun hflawed => hflawed) (List.Subset.refl _)

theorem trans (h : Onto file own pkg pkg') (h' : Onto file own pkg' pkg'') : Onto file own pkg pkg'' := by
  refine ⟨h.onward.trans h'.onward, fun entry hentry obj hobj => ?_, fun entry hentry hbegun hne => ?_,
    fun hflawed => h'.flawed (h.flawed hflawed), List.Subset.trans h.methods h'.methods⟩
  · obtain ⟨obj', hobj', hgains⟩ := h.gains entry hentry obj hobj
    obtain ⟨obj'', hobj'', hgains'⟩ := h'.gains entry hentry obj' hobj'
    exact ⟨obj'', hobj'', hgains.trans hgains'⟩
  · rw [h'.still entry hentry (by rwa [h.onward.kept _ hbegun]) hne, h.still entry hentry hbegun hne]

/-- What is given to some names is given to more. -/
theorem widen {own' : List NodeId} (h : Onto file own pkg pkg') (hsubset : own ⊆ own') : Onto file own' pkg pkg' :=
  ⟨h.onward, h.gains,
    fun entry hentry hbegun hname => h.still entry hentry hbegun fun hmem => hname (hsubset hmem), h.flawed,
    h.methods⟩

theorem retains (h : Onto file own pkg pkg') (horderly : pkg.Orderly file) : Retains file pkg pkg' :=
  Package.Sane.retains horderly h.onward.steady h.gains h.flawed

theorem grows (h : Onto file own pkg pkg') (horderly : pkg.Orderly file) : Grows pkg.types pkg'.types :=
  h.onward.steady.reaches.grows horderly.regular.toSound

end Onto

/-- A condition that is not affected by what is given to the names `own`. -/
def Durable (file : ParsedFile) (own : List NodeId) (P : Package → Prop) : Prop :=
  ∀ ⦃pkg pkg' : Package⦄, pkg.Orderly file → Onto file own pkg pkg' → P pkg → P pkg'

section

variable {P Q : Package → Prop}

theorem durable_true : Durable file own fun _ => True :=
  fun _ _ _ _ _ => trivial

theorem Durable.and (hP : Durable file own P) (hQ : Durable file own Q) :
    Durable file own fun pkg => P pkg ∧ Q pkg :=
  fun _ _ horderly honto h => ⟨hP horderly honto h.1, hQ horderly honto h.2⟩

theorem durable_forall {ι : Type} {P : ι → Package → Prop} (h : ∀ i, Durable file own (P i)) :
    Durable file own fun pkg => ∀ i, P i pkg :=
  fun _ _ horderly honto hP i => h i horderly honto (hP i)

theorem durable_exists {ι : Type} {P : ι → Package → Prop} (h : ∀ i, Durable file own (P i)) :
    Durable file own fun pkg => ∃ i, P i pkg :=
  fun _ _ horderly honto ⟨i, hP⟩ => ⟨i, h i horderly honto hP⟩

theorem Durable.imp {p : Prop} (h : Durable file own P) : Durable file own fun pkg => p → P pkg :=
  fun _ _ horderly honto hP hp => h horderly honto (hP hp)

theorem durable_const (p : Prop) : Durable file own fun _ => p :=
  fun _ _ _ _ hp => hp

theorem durable_knows (t : TypeId) : Durable file own fun pkg => pkg.types.Knows t :=
  fun _ _ horderly honto ht => (honto.grows horderly).knows ht

theorem durable_flawed : Durable file own fun pkg => pkg.Flawed file :=
  fun _ _ _ honto hflawed => honto.flawed hflawed

theorem durable_signifies (id : NodeId) (t : TypeId) : Durable file own fun pkg => Signifies file start pkg id t :=
  fun _ _ horderly honto h => h.later (honto.retains horderly)

theorem durable_answers (id : NodeId) (t : TypeId) : Durable file own (Answers file start id t) :=
  fun _ _ horderly honto h => h.later (honto.retains horderly)

/-- When no declaration is left, none becomes pending or is taken up again. -/
theorem durable_ended : Durable file own Package.Ended := by
  intro pkg pkg' _ honto hended spec hopen
  rw [Package.Open, honto.onward.kept spec fun hpending => hended spec (.inl hpending)] at hopen
  exact hended spec hopen

theorem durable_progress (spec : NodeId) : Durable file own fun pkg => pkg.progress? spec ≠ some .pending := by
  intro pkg pkg' _ honto hspec
  rw [honto.onward.kept spec hspec]
  exact hspec

/-- No declaration is under way. -/
theorem durable_idle : Durable file own fun pkg => ∀ spec, pkg.progress? spec ≠ some .resolving :=
  fun _ _ _ honto hidle spec hspec => hidle spec (honto.onward.ended spec hspec)

/-- The declarations stay the same ones. -/
theorem durable_entries (entries : List Entry) : Durable file own fun pkg => pkg.tasks.map Task.entry = entries :=
  fun _ _ _ honto h => honto.onward.steady.entries_eq.trans h

end

/-! ### Actions -/

/-- How an action ends in a sane package: with an answer or a fault, and then the package is sane; or for good.  All
faults are fair. -/
def Outcome (file : ParsedFile) (start : TypeTable) (own : List NodeId) (pkg : Package) (Q : α → Package → Prop) :
    Except Failure α × Package → Prop
  | (.ok x, pkg') => pkg'.Sane file start ∧ Onto file own pkg pkg' ∧ Q x pkg'
  | (.error (.declaration d), pkg') =>
      pkg'.Sane file start ∧ Onto file own pkg pkg' ∧ d.cause.Fair start pkg'.types
  | (.error (.construction _), pkg') => ∀ d ∈ pkg'.faults, d.cause.Fair start pkg'.types

/-- What an action does, from sane packages with `P` to packages with `Q`. -/
def Yields (file : ParsedFile) (start : TypeTable) (own : List NodeId) (P : Package → Prop) (action : ResolveM α)
    (Q : α → Package → Prop) : Prop :=
  ∀ pkg : Package, pkg.Sane file start → P pkg → Outcome file start own pkg Q (action file pkg)

/-- What was done before. -/
theorem Outcome.after {Q : α → Package → Prop} {result : Except Failure α × Package} (honto : Onto file own pkg pkg')
    (h : Outcome file start own pkg' Q result) : Outcome file start own pkg Q result := by
  rcases result with ⟨(d | fault) | x, pkg''⟩
  · exact ⟨h.1, honto.trans h.2.1, h.2.2⟩
  · exact h
  · exact ⟨h.1, honto.trans h.2.1, h.2.2⟩

theorem Outcome.fair {Q : α → Package → Prop} {result : Except Failure α × Package}
    (h : Outcome file start own pkg Q result) : ∀ d ∈ result.2.faults, d.cause.Fair start result.2.types := by
  rcases result with ⟨(d | fault) | x, pkg'⟩
  · exact h.1.fair
  · exact h
  · exact h.1.fair

namespace Yields

variable {P P' : Package → Prop} {a : ResolveM α} {Q Q' : α → Package → Prop}

theorem mono (h : Yields file start own P a Q) (hQ : ∀ x pkg, pkg.Sane file start → Q x pkg → Q' x pkg) :
    Yields file start own P a Q' := by
  intro pkg hsane hpkg
  have hout := h pkg hsane hpkg
  rcases hrun : a file pkg with ⟨(d | fault) | x, pkg'⟩
  · rw [hrun] at hout
    exact hout
  · rw [hrun] at hout
    exact hout
  · rw [hrun] at hout
    exact ⟨hout.1, hout.2.1, hQ x pkg' hout.1 hout.2.2⟩

theorem pre (h : Yields file start own P a Q) (hP : ∀ pkg, pkg.Sane file start → P' pkg → P pkg) :
    Yields file start own P' a Q :=
  fun pkg hsane hpkg => h pkg hsane (hP pkg hsane hpkg)

/-- What is done in all packages is done in some. -/
theorem any (h : Yields file start own (fun _ => True) a Q) : Yields file start own P a Q :=
  h.pre fun _ _ _ => trivial

theorem pure {x : α} (h : ∀ pkg, pkg.Sane file start → P pkg → Q x pkg) : Yields file start own P (Pure.pure x) Q :=
  fun pkg hsane hpkg => ⟨hsane, .refl pkg, h pkg hsane hpkg⟩

/-- An action, and what is done next. -/
theorem seq {f : α → ResolveM β} {R : β → Package → Prop} (h : Yields file start own P a Q)
    (hf : ∀ x, Yields file start own (Q x) (f x) R) : Yields file start own P (a >>= f) R := by
  intro pkg hsane hpkg
  have hout := h pkg hsane hpkg
  rw [ResolveM.bind_run]
  rcases hrun : a file pkg with ⟨(d | fault) | x, pkg'⟩
  · rw [hrun] at hout
    exact hout
  · rw [hrun] at hout
    exact hout
  · rw [hrun] at hout
    obtain ⟨hsane', honto, hq⟩ := hout
    exact (hf x pkg' hsane' hq).after honto

/-- A durable condition is there after an action as well. -/
theorem frame {R : Package → Prop} (h : Yields file start own P a Q) (hR : Durable file own R) :
    Yields file start own (fun pkg => P pkg ∧ R pkg) a fun x pkg => Q x pkg ∧ R pkg := by
  rintro pkg hsane ⟨hpkg, hrest⟩
  have hout := h pkg hsane hpkg
  rcases hrun : a file pkg with ⟨(d | fault) | x, pkg'⟩
  · rw [hrun] at hout
    exact hout
  · rw [hrun] at hout
    exact hout
  · rw [hrun] at hout
    exact ⟨hout.1, hout.2.1, hout.2.2, hR hsane.toOrderly hout.2.1 hrest⟩

/-- What gives nothing to any name does nothing else to those of `own`. -/
theorem widen {own' : List NodeId} (h : Yields file start own P a Q) (hsubset : own ⊆ own') :
    Yields file start own' P a Q := by
  intro pkg hsane hpkg
  have hout := h pkg hsane hpkg
  rcases hrun : a file pkg with ⟨(d | fault) | x, pkg'⟩
  · rw [hrun] at hout
    exact ⟨hout.1, hout.2.1.widen hsubset, hout.2.2⟩
  · rw [hrun] at hout
    exact hout
  · rw [hrun] at hout
    exact ⟨hout.1, hout.2.1.widen hsubset, hout.2.2⟩

/-- A question, and what is done with the answer. -/
theorem bind {f : α → ResolveM β} {R : β → Package → Prop} (h : Yields file start [] P a Q)
    (hP : Durable file [] P) (hf : ∀ x, Yields file start own (fun pkg => P pkg ∧ Q x pkg) (f x) R) :
    Yields file start own P (a >>= f) R :=
  (((h.frame hP).pre fun _ _ hpkg => ⟨hpkg, hpkg⟩).widen (List.nil_subset own)).seq fun x =>
    (hf x).pre fun _ _ hpkg => hpkg.symm

theorem map {f : α → β} {R : β → Package → Prop} (h : Yields file start own P a Q)
    (hf : ∀ x pkg, pkg.Sane file start → Q x pkg → R (f x) pkg) : Yields file start own P (f <$> a) R := by
  intro pkg hsane hpkg
  have hout := h pkg hsane hpkg
  rw [map_eq_pure_bind, ResolveM.bind_run]
  rcases hrun : a file pkg with ⟨(d | fault) | x, pkg'⟩
  · rw [hrun] at hout
    exact hout
  · rw [hrun] at hout
    exact hout
  · rw [hrun] at hout
    exact ⟨hout.1, hout.2.1, hf x pkg' hout.1 hout.2.2⟩

theorem ite {p : Prop} [Decidable p] {b : ResolveM α} (ha : p → Yields file start own P a Q)
    (hb : ¬ p → Yields file start own P b Q) : Yields file start own P (if p then a else b) Q := by
  by_cases hp : p
  · rw [if_pos hp]
    exact ha hp
  · rw [if_neg hp]
    exact hb hp

theorem fail {node : NodeId} {cause : SemanticFault} (hcause : cause.mismatch? = none) :
    Yields file start own P (ResolveM.fail node cause : ResolveM α) Q :=
  fun pkg hsane _ => ⟨hsane, .refl pkg, SemanticFault.fair_of_none hcause⟩

/-- A condition whose violation ends the work. -/
theorem check {p : Prop} [Decidable p] {node : NodeId} {cause : SemanticFault} {f : Unit → ResolveM α}
    (hcause : cause.mismatch? = none) (h : ¬ p → Yields file start own P (f ()) Q) :
    Yields file start own P (if p then ResolveM.fail node cause >>= f else f ()) Q :=
  ite (fun _ pkg hsane _ => ⟨hsane, .refl pkg, SemanticFault.fair_of_none hcause⟩) h

theorem tree {f : Tree → ResolveM β} {R : β → Package → Prop} (h : Yields file start own P (f file.tree) R) :
    Yields file start own P (ResolveM.tree >>= f) R :=
  fun pkg hsane hpkg => h pkg hsane hpkg

theorem get {f : Package → ResolveM β} {R : β → Package → Prop}
    (h : ∀ q : Package, q.Sane file start → P q → Yields file start own (fun pkg => P pkg ∧ pkg = q) (f q) R) :
    Yields file start own P (MonadState.get >>= f) R :=
  fun pkg hsane hpkg => h pkg hsane hpkg pkg hsane ⟨hpkg, rfl⟩

theorem types {f : TypeTable → ResolveM β} {R : β → Package → Prop}
    (h : ∀ tt : TypeTable, Yields file start own (fun pkg => P pkg ∧ pkg.types = tt) (f tt) R) :
    Yields file start own P (ResolveM.types >>= f) R :=
  fun pkg hsane hpkg => h pkg.types pkg hsane ⟨hpkg, rfl⟩

theorem part {id : NodeId} {place : Nat} {f : NodeId → ResolveM β} {R : β → Package → Prop}
    (h : ∀ c, file.tree.part? id place = some c → Yields file start own P (f c) R) :
    Yields file start own P (ResolveM.part id place >>= f) R := by
  intro pkg hsane hpkg
  rw [ResolveM.bind_run]
  cases hpart : file.tree.part? id place with
  | some c =>
      rw [ResolveM.part_run hpart]
      exact h c hpart pkg hsane hpkg
  | none =>
      have hrun : ResolveM.part id place file pkg =
          (ResolveM.fail id (.incomplete (file.tree.render id)) : ResolveM NodeId) file pkg := by
        rw [ResolveM.part, ResolveM.run_bind (ResolveM.tree_run file pkg), hpart]
      rw [hrun]
      exact ⟨hsane, .refl pkg, SemanticFault.fair_of_none rfl⟩

/-- An action for each of a list, which gives something to a name of its own.  Before, the names have `Before`, and
then they have `After`. -/
theorem forM {f : β → ResolveM Unit} {name : β → NodeId} {Before After : NodeId → Package → Prop} (xs : List β)
    (hnodup : (xs.map name).Nodup) (hP : ∀ own, Durable file own P)
    (hbefore : ∀ x ∈ xs, ∀ own, name x ∉ own → Durable file own (Before (name x)))
    (hafter : ∀ x ∈ xs, ∀ own, name x ∉ own → Durable file own (After (name x)))
    (h : ∀ x ∈ xs, Yields file start [name x] (fun pkg => P pkg ∧ Before (name x) pkg) (f x)
      fun _ => After (name x)) :
    Yields file start (xs.map name) (fun pkg => P pkg ∧ ∀ x ∈ xs, Before (name x) pkg) (xs.forM f) fun _ pkg =>
      ∀ x ∈ xs, After (name x) pkg := by
  induction xs with
  | nil => exact .pure fun _ _ _ x hx => absurd hx List.not_mem_nil
  | cons x rest ih =>
      obtain ⟨hx, hrestnodup⟩ := List.nodup_cons.1 hnodup
      have hrest := ih hrestnodup (fun y hy => hbefore y (List.mem_cons_of_mem _ hy))
        (fun y hy => hafter y (List.mem_cons_of_mem _ hy)) fun y hy => h y (List.mem_cons_of_mem _ hy)
      have hwaiting : Durable file [name x] fun pkg => P pkg ∧ ∀ y ∈ rest, Before (name y) pkg := by
        refine (hP _).and (durable_forall fun y => ?_)
        intro pkg pkg' horderly honto hy hmem
        refine hbefore y (List.mem_cons_of_mem _ hmem) _ (fun hname => hx ?_) horderly honto (hy hmem)
        exact List.mem_singleton.1 hname ▸ List.mem_map_of_mem hmem
      have hfirst := ((h x List.mem_cons_self).frame hwaiting).widen (show [name x] ⊆ (x :: rest).map name by simp)
      have hothers := (hrest.frame (hafter x List.mem_cons_self _ hx)).widen 
        (show rest.map name ⊆ (x :: rest).map name from List.subset_cons_self _ _)
      refine (hfirst.pre fun pkg _ hpkg => ?_).seq fun _ => (hothers.pre fun pkg _ hpkg => hpkg.symm).mono ?_
      · exact ⟨⟨hpkg.1, hpkg.2 x List.mem_cons_self⟩, hpkg.1, fun y hy => hpkg.2 y (List.mem_cons_of_mem _ hy)⟩
      · rintro _ pkg - ⟨hrest, hfirst⟩ y hy
        obtain rfl | hy := List.mem_cons.1 hy
        · exact hfirst
        · exact hrest y hy

/-- An action for each of a list that gives nothing to any name. -/
theorem forEach {f : β → ResolveM Unit} {R : β → Package → Prop} (xs : List β) (hP : Durable file [] P)
    (hR : ∀ x, Durable file [] (R x)) (h : ∀ x ∈ xs, Yields file start [] P (f x) fun _ => R x) :
    Yields file start [] P (xs.forM f) fun _ pkg => ∀ x ∈ xs, R x pkg := by
  induction xs with
  | nil => exact .pure fun _ _ _ x hx => absurd hx List.not_mem_nil
  | cons x rest ih =>
      refine (h x List.mem_cons_self).bind hP fun _ => ?_
      refine ((ih fun y hy => h y (List.mem_cons_of_mem _ hy)).frame (hR x)).mono ?_
      rintro _ pkg - ⟨hrest, hfirst⟩ y hy
      obtain rfl | hy := List.mem_cons.1 hy
      · exact hfirst
      · exact hrest y hy

end Yields

/-! ### Building types -/

/-- An operation on the types is refused, or makes a type of a shape with `R`, of types that the table knows. -/
inductive Makes (pkg : Package) (action : TypeM TypeId) (R : Shape → Prop) : Prop
  | refused {fault : TypeFault} (hrun : action pkg.types = (.error fault, pkg.types))
  | interned (s : Shape) (op : Operation) (hrun : action pkg.types = intern s pkg.types)
      (hop : op.run pkg.types = (action pkg.types).2) (hknown : ∀ t ∈ op.handles, pkg.types.Knows t)
      (hbuilt : s.isDeclared = false) (hparts : ∀ part ∈ s.components, pkg.types.Knows part) (hs : R s)

variable {action : TypeM TypeId} {R : Shape → Prop}

/-- The package after an operation on the types. -/
theorem Makes.built (h : Makes pkg action R) (hsane : pkg.Sane file start) :
    ({ pkg with types := (action pkg.types).2 } : Package).Sane file start ∧
      Onto file own pkg { pkg with types := (action pkg.types).2 } ∧
      ∀ t, (action pkg.types).1 = .ok t → ∃ s, R s ∧ (action pkg.types).2.shape t = s := by
  have hbuilds : pkg.types.Builds (action pkg.types).2 := by
    cases h with
    | refused hrun =>
        rw [hrun]
        exact ⟨.refl, fun _ _ => rfl⟩
    | interned s op hrun hop hknown =>
        refine ⟨Reaches.after .refl op hknown hop, fun t ht => ?_⟩
        rw [hrun]
        exact shape_intern_of_knows s ht
  refine ⟨hsane.build hbuilds, .of_objects_eq (.of_tasks_eq ⟨rfl, rfl, rfl, rfl, hbuilds.reaches⟩ rfl) rfl
    (fun hflawed => hflawed) (List.Subset.refl _), fun t ht => ?_⟩
  cases h with
  | refused hrun =>
      rw [hrun] at ht
      cases ht
  | interned s op hrun hop hknown hbuilt hparts hs =>
      rw [hrun] at ht ⊢
      exact ⟨s, hs, ((hsane.sound.intern hbuilt hparts).2 t ht).2⟩

namespace Yields

variable {P : Package → Prop} {Q : TypeId → Package → Prop}

theorem build (h : ∀ pkg, pkg.Sane file start → P pkg →
      Makes pkg action fun s => ∀ pkg' t, pkg'.Sane file start → Onto file [] pkg pkg' → pkg'.types.shape t = s →
        Q t pkg') :
    Yields file start [] P (ResolveM.build action) Q := by
  intro pkg hsane hpkg
  obtain ⟨hsane', honto, hshape⟩ : _ ∧ Onto file [] pkg _ ∧ _ := (h pkg hsane hpkg).built hsane
  rw [ResolveM.build, ResolveM.bind_run, Does.onTypes_eq]
  dsimp only
  cases houtcome : (action pkg.types).1 with
  | ok t =>
      obtain ⟨s, hq, hs⟩ := hshape t houtcome
      exact ⟨hsane', honto, hq _ t hsane' honto hs⟩
  | error fault => exact hsane'.fair

/-- A refusal is no mismatch, whether it is a fault of the source or not. -/
theorem buildAt {node : NodeId} (h : ∀ pkg, pkg.Sane file start → P pkg →
      Makes pkg action fun s => ∀ pkg' t, pkg'.Sane file start → Onto file [] pkg pkg' → pkg'.types.shape t = s →
        Q t pkg') :
    Yields file start [] P (ResolveM.buildAt node action) Q := by
  intro pkg hsane hpkg
  obtain ⟨hsane', honto, hshape⟩ : _ ∧ Onto file [] pkg _ ∧ _ := (h pkg hsane hpkg).built hsane
  rw [ResolveM.buildAt, ResolveM.bind_run, Does.onTypes_eq]
  dsimp only
  cases houtcome : (action pkg.types).1 with
  | ok t =>
      obtain ⟨s, hq, hs⟩ := hshape t houtcome
      exact ⟨hsane', honto, hq _ t hsane' honto hs⟩
  | error fault =>
      cases fault with
      | arrayTooLarge | duplicateMethod | notAnInterface | incompleteEmbedded =>
          exact ⟨hsane', honto, SemanticFault.fair_of_none rfl⟩
      | _ => exact hsane'.fair

end Yields

end GoSource
