import GoSource.Proofs.Package.Work

/-!
# What resolution may do

An action of resolution does a piece of work and gives an answer, or ends with a fault that lies in the node it was
asked about.  A type is refused without a fault of the source only for too many methods.

* **`Does`**: what an action does in an orderly package, with a condition before and one after.  A condition that is
  **`Lasting`** can be used after the work as well.
* One lemma for each way of composing actions.
-/

namespace GoSource

open TypeTable

variable {α β : Type} {file : ParsedFile} {self : Option Entry} {root : NodeId}

/-! ### Conditions -/

/-- A condition that work does not affect. -/
def Lasting (file : ParsedFile) (P : Package → Prop) : Prop :=
  ∀ ⦃self : Option Entry⦄ ⦃pkg pkg' : Package⦄ ⦃es : List Event⦄, pkg.Orderly file → Work file self pkg es pkg' →
    P pkg → P pkg'

theorem lasting_true : Lasting file fun _ => True :=
  fun _ _ _ _ _ _ _ => trivial

theorem Lasting.and {P Q : Package → Prop} (hP : Lasting file P) (hQ : Lasting file Q) :
    Lasting file fun pkg => P pkg ∧ Q pkg :=
  fun _ _ _ _ horderly hwork h => ⟨hP horderly hwork h.1, hQ horderly hwork h.2⟩

theorem lasting_const (c : Prop) : Lasting file fun _ => c :=
  fun _ _ _ _ _ _ h => h

theorem lasting_forall {ι : Type} {P : ι → Package → Prop} (h : ∀ i, Lasting file (P i)) :
    Lasting file fun pkg => ∀ i, P i pkg :=
  fun _ _ _ _ horderly hwork hP i => h i horderly hwork (hP i)

theorem Lasting.imp {c : Prop} {P : Package → Prop} (h : Lasting file P) : Lasting file fun pkg => c → P pkg :=
  fun _ _ _ _ horderly hwork hP hc => h horderly hwork (hP hc)

theorem lasting_knows (t : TypeId) : Lasting file fun pkg => pkg.types.Knows t :=
  fun _ _ _ _ horderly hwork ht => (hwork.steady.reaches.grows horderly.regular.toSound).knows ht

theorem lasting_func (t : TypeId) : Lasting file fun pkg => (pkg.types.shape t).kind = .func :=
  fun _ _ _ _ horderly hwork ht => (hwork.steady.reaches.grows horderly.regular.toSound).kind_of_shape ht (by decide)

theorem lasting_ended : Lasting file fun pkg => ∀ entry, ¬ pkg.Awaits file entry := by
  intro self pkg pkg' es _ hwork hended entry hentry
  have hold : ¬ pkg.Open entry.spec := fun h => hended entry ⟨hentry.fits, hentry.role_eq, h⟩
  have hkept := ((hwork.history entry.spec).quiet fun h => hold (.inl h)).1
  have hopen := hentry.isOpen
  rw [Package.Open, hkept] at hopen
  exact hold hopen

/-- The last type is that of a variadic parameter, as far as it is valid. -/
def VariadicEnd (ts : List TypeId) (pkg : Package) : Prop :=
  ∃ t, ts.getLast? = some t ∧ pkg.types.Knows t ∧ (pkg.types.isInvalid t = true ∨ pkg.types.kind t = .slice)

theorem lasting_variadicEnd (ts : List TypeId) : Lasting file (VariadicEnd ts) := by
  rintro self pkg pkg' es horderly hwork ⟨t, hlast, hknown, hslice⟩
  have hgrows := hwork.steady.reaches.grows horderly.regular.toSound
  refine ⟨t, hlast, hgrows.knows hknown, ?_⟩
  rcases hslice with hinvalid | hslice
  · exact .inl (hgrows.isInvalid horderly.regular.toSound hknown hinvalid)
  · exact .inr (hgrows.kind_eq horderly.regular.toSound hslice (by decide))

/-! ### Actions -/

/-- How an action may end: with an answer, with one of the faults `F`, or with too many methods. -/
def Ends (file : ParsedFile) (self : Option Entry) (F : Diagnostic SemanticFault → Prop) (pkg : Package)
    (Q : α → Package → Prop) : Except Failure α × Package → Prop
  | (.ok x, pkg') => (∃ es, Work file self pkg es pkg') ∧ Q x pkg'
  | (.error (.declaration d), pkg') => (∃ es, Work file self pkg es pkg') ∧ F d
  | (.error (.construction fault), pkg') =>
      (∃ n, fault = .tooManyMethods n) ∧ pkg'.outer = pkg.outer ∧ Reaches pkg.types pkg'.types

/-- What an action does, from orderly packages with `P` to packages with `Q`.  Its faults lie in the node `root`. -/
def Does (file : ParsedFile) (self : Option Entry) (root : NodeId) (P : Package → Prop) (action : ResolveM α)
    (Q : α → Package → Prop) : Prop :=
  ∀ pkg : Package, pkg.Orderly file → P pkg → Ends file self (·.LiesIn file root) pkg Q (action file pkg)

section

variable {pkg pkg₁ : Package} {F F' : Diagnostic SemanticFault → Prop} {Q Q' : α → Package → Prop}
  {result : Except Failure α × Package}

/-- What was done before. -/
theorem Ends.after {es : List Event} (hwork : Work file self pkg es pkg₁) (h : Ends file self F pkg₁ Q result) :
    Ends file self F pkg Q result := by
  match result with
  | (.ok x, pkg') =>
      obtain ⟨⟨es', hwork'⟩, hQ⟩ := h
      exact ⟨⟨_, hwork.after hwork'⟩, hQ⟩
  | (.error (.declaration d), pkg') =>
      obtain ⟨⟨es', hwork'⟩, hd⟩ := h
      exact ⟨⟨_, hwork.after hwork'⟩, hd⟩
  | (.error (.construction fault), pkg') =>
      obtain ⟨hfault, houter, hreaches⟩ := h
      exact ⟨hfault, houter.trans hwork.steady.outer_eq, hwork.steady.reaches.trans hreaches⟩

theorem Ends.mono (h : Ends file self F pkg Q result) (horderly : pkg.Orderly file) (hF : ∀ d, F d → F' d)
    (hQ : ∀ x pkg, pkg.Orderly file → Q x pkg → Q' x pkg) : Ends file self F' pkg Q' result := by
  match result with
  | (.ok x, pkg') =>
      obtain ⟨⟨es, hwork⟩, hq⟩ := h
      exact ⟨⟨es, hwork⟩, hQ x pkg' (hwork.orderly horderly) hq⟩
  | (.error (.declaration d), pkg') => exact ⟨h.1, hF d h.2⟩
  | (.error (.construction fault), pkg') => exact h

end

namespace Does

variable {P P' : Package → Prop} {a : ResolveM α} {Q Q' : α → Package → Prop}

theorem mono (h : Does file self root P a Q) (hQ : ∀ x pkg, pkg.Orderly file → Q x pkg → Q' x pkg) :
    Does file self root P a Q' :=
  fun pkg horderly hpkg => (h pkg horderly hpkg).mono horderly (fun _ hd => hd) hQ

theorem pre (h : Does file self root P a Q) (hP : ∀ pkg, P' pkg → P pkg) : Does file self root P' a Q :=
  fun pkg horderly hpkg => h pkg horderly (hP pkg hpkg)

/-- What is done in all packages is done in some. -/
theorem any (h : Does file self root (fun _ => True) a Q) : Does file self root P a Q :=
  h.pre fun _ _ => trivial

theorem pure {x : α} (h : ∀ pkg, pkg.Orderly file → P pkg → Q x pkg) : Does file self root P (Pure.pure x) Q :=
  fun pkg horderly hpkg => ⟨⟨[], .idle⟩, h pkg horderly hpkg⟩

/-- One action after another. -/
theorem bind {f : α → ResolveM β} {R : β → Package → Prop} (h : Does file self root P a Q) (hP : Lasting file P)
    (hf : ∀ x, Does file self root (fun pkg => P pkg ∧ Q x pkg) (f x) R) : Does file self root P (a >>= f) R := by
  intro pkg horderly hpkg
  have hends := h pkg horderly hpkg
  rw [ResolveM.bind_run]
  match hrun : a file pkg with
  | (.ok x, pkg') =>
      rw [hrun] at hends
      obtain ⟨⟨es, hwork⟩, hq⟩ := hends
      exact (hf x pkg' (hwork.orderly horderly) ⟨hP horderly hwork hpkg, hq⟩).after hwork
  | (.error (.declaration d), pkg') =>
      rw [hrun] at hends
      exact hends
  | (.error (.construction fault), pkg') =>
      rw [hrun] at hends
      exact hends

theorem map {f : α → β} {R : β → Package → Prop} (h : Does file self root P a Q)
    (hf : ∀ x pkg, pkg.Orderly file → Q x pkg → R (f x) pkg) : Does file self root P (f <$> a) R := by
  intro pkg horderly hpkg
  have hends := h pkg horderly hpkg
  rw [map_eq_pure_bind, ResolveM.bind_run]
  match hrun : a file pkg with
  | (.ok x, pkg') =>
      rw [hrun] at hends
      obtain ⟨⟨es, hwork⟩, hq⟩ := hends
      exact ⟨⟨es, hwork⟩, hf x pkg' (hwork.orderly horderly) hq⟩
  | (.error (.declaration d), pkg') =>
      rw [hrun] at hends
      exact hends
  | (.error (.construction fault), pkg') =>
      rw [hrun] at hends
      exact hends

theorem ite {c : Prop} [Decidable c] {b : ResolveM α} (ha : c → Does file self root P a Q)
    (hb : ¬ c → Does file self root P b Q) : Does file self root P (if c then a else b) Q := by
  by_cases hc : c
  · rw [if_pos hc]
    exact ha hc
  · rw [if_neg hc]
    exact hb hc

theorem fail {node : NodeId} (hunder : file.tree.Under root node) (cause : SemanticFault) :
    Does file self root P (ResolveM.fail node cause : ResolveM α) Q :=
  fun _ _ _ => ⟨⟨[], .idle⟩, node, cause, hunder, rfl⟩

/-- A condition whose violation ends the work. -/
theorem check {c : Prop} [Decidable c] {node : NodeId} {cause : SemanticFault} {f : Unit → ResolveM α}
    (hunder : file.tree.Under root node) (h : ¬ c → Does file self root P (f ()) Q) :
    Does file self root P (if c then ResolveM.fail node cause >>= f else f ()) Q :=
  ite (fun _ _ _ _ => ⟨⟨[], .idle⟩, node, cause, hunder, rfl⟩) h

theorem tree {f : Tree → ResolveM β} {R : β → Package → Prop} (h : Does file self root P (f file.tree) R) :
    Does file self root P (ResolveM.tree >>= f) R :=
  fun pkg horderly hpkg => h pkg horderly hpkg

theorem get {f : Package → ResolveM β} {R : β → Package → Prop}
    (h : ∀ q : Package, q.Orderly file → Does file self root (fun pkg => P pkg ∧ pkg = q) (f q) R) :
    Does file self root P (MonadState.get >>= f) R :=
  fun pkg horderly hpkg => h pkg horderly pkg horderly ⟨hpkg, rfl⟩

theorem types {f : TypeTable → ResolveM β} {R : β → Package → Prop}
    (h : ∀ tt : TypeTable, Does file self root (fun pkg => P pkg ∧ pkg.types = tt) (f tt) R) :
    Does file self root P (ResolveM.types >>= f) R :=
  fun pkg horderly hpkg => h pkg.types pkg horderly ⟨hpkg, rfl⟩

theorem part {id : NodeId} {place : Nat} {f : NodeId → ResolveM β} {R : β → Package → Prop}
    (hunder : file.tree.Under root id)
    (h : ∀ c, file.tree.part? id place = some c → file.tree.Under root c → Does file self root P (f c) R) :
    Does file self root P (ResolveM.part id place >>= f) R := by
  intro pkg horderly hpkg
  rw [ResolveM.bind_run]
  cases hpart : file.tree.part? id place with
  | some c =>
      rw [ResolveM.part_run hpart]
      exact h c hpart (hunder.tail (Tree.mem_present_of_part? hpart)) pkg horderly hpkg
  | none =>
      have hrun : ResolveM.part id place file pkg =
          (ResolveM.fail id (.incomplete (file.tree.render id)) : ResolveM NodeId) file pkg := by
        rw [ResolveM.part, ResolveM.run_bind (ResolveM.tree_run file pkg), hpart]
      rw [hrun]
      exact ⟨⟨[], .idle⟩, id, _, hunder, rfl⟩

/-- An action for each of a list, none of which needs what another one did. -/
theorem forM {f : β → ResolveM Unit} (xs : List β) (hP : Lasting file P)
    (h : ∀ x ∈ xs, Does file self root P (f x) fun _ _ => True) :
    Does file self root P (xs.forM f) fun _ _ => True := by
  induction xs with
  | nil => exact .pure fun _ _ _ => trivial
  | cons x rest ih =>
      refine (h x List.mem_cons_self).bind hP fun _ => ?_
      exact (ih fun y hy => h y (List.mem_cons_of_mem _ hy)).pre fun _ => And.left

/-! ### Building types -/

/-- The package after an operation on the types. -/
theorem onTypes_eq (action : TypeM α) (pkg : Package) :
    ResolveM.onTypes action file pkg =
      (.ok (action pkg.types).1, { pkg with types := (action pkg.types).2 }) := rfl

/-- A type that is never refused. -/
theorem build {s : Shape} (op : Operation) (hop : ∀ tt, op.run tt = (intern s tt).2) (hbuilt : s.isDeclared = false)
    (harray : ∀ e n, s ≠ .array e n) (hparts : ∀ part ∈ s.components, part ∈ op.handles)
    (hknown : ∀ pkg, P pkg → ∀ t ∈ op.handles, pkg.types.Knows t) :
    Does file self root P (ResolveM.build (intern s)) fun t pkg => pkg.types.Knows t ∧ pkg.types.shape t = s := by
  intro pkg horderly hpkg
  have hhandles := hknown pkg hpkg
  obtain ⟨t, tt, hrun, -, ht, hs⟩ := horderly.regular.toSound.interned hbuilt
    (fun part hpart => hhandles part (hparts part hpart)) harray
  have hbuilds : pkg.types.Builds tt := by
    refine ⟨Reaches.after .refl op hhandles ?_, fun u hu => ?_⟩
    · rw [hop, hrun]
    · have hshape := shape_intern_of_knows s hu
      rwa [hrun] at hshape
  rw [ResolveM.build, ResolveM.bind_run, onTypes_eq, hrun]
  exact ⟨⟨[], .build hbuilds⟩, ht, hs⟩

/-- A type that can be refused, for reasons that lie in the source or for too many methods. -/
theorem buildAt {action : TypeM TypeId} {id : NodeId} {Q : TypeId → Package → Prop} (op : Operation)
    (hunder : file.tree.Under root id) (hop : ∀ tt, op.run tt = (action tt).2)
    (hshape : ∀ tt t, tt.Knows t → (action tt).2.shape t = tt.shape t)
    (hknown : ∀ pkg, P pkg → ∀ t ∈ op.handles, pkg.types.Knows t)
    (hgranted : ∀ pkg, pkg.Orderly file → P pkg → ∀ t, (action pkg.types).1 = .ok t →
      Q t { pkg with types := (action pkg.types).2 })
    (hrefused : ∀ pkg, pkg.Orderly file → P pkg → ∀ fault, (action pkg.types).1 = .error fault →
      fault.isLocal = true ∨ ∃ n, fault = .tooManyMethods n) :
    Does file self root P (ResolveM.buildAt id action) Q := by
  intro pkg horderly hpkg
  have hreaches : Reaches pkg.types (action pkg.types).2 :=
    Reaches.after .refl op (hknown pkg hpkg) (hop pkg.types)
  have hbuilds : pkg.types.Builds (action pkg.types).2 := ⟨hreaches, fun t ht => hshape pkg.types t ht⟩
  rw [ResolveM.buildAt, ResolveM.bind_run, onTypes_eq]
  dsimp only
  cases houtcome : (action pkg.types).1 with
  | ok t => exact ⟨⟨[], .build hbuilds⟩, hgranted pkg horderly hpkg t houtcome⟩
  | error fault =>
      have hwork : Work file self pkg [] { pkg with types := (action pkg.types).2 } := .build hbuilds
      rcases hrefused pkg horderly hpkg fault houtcome with hlocal | ⟨n, rfl⟩
      · cases fault with
        | arrayTooLarge | duplicateMethod | notAnInterface | incompleteEmbedded =>
            exact ⟨⟨[], hwork⟩, id, .construction _, hunder, rfl⟩
        | _ => cases hlocal
      · exact ⟨⟨n, rfl⟩, rfl, hreaches⟩

end Does

end GoSource
