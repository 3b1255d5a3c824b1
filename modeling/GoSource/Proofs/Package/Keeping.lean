import GoSource.Proofs.Package.Tame

/-!
# What resolution keeps

An action of resolution leaves a tame package tame, and what it finds wrong is no recursion.

* **`Keeps`**: what an action does in a tame package, with a condition before and one after.  A condition that is
  **`Stable`** can be used after the action as well.
* One lemma for each way of composing actions.
* **`Package.Tame.interned`**: a type that is built of types that can be used can be used.
-/

namespace GoSource

open TypeTable

variable {file : ParsedFile} {owns : NodeId → TypeId → Prop} {pkg pkg' : Package} {spec x y : NodeId} {t : TypeId}

/-! ### Conditions -/

/-- What resolution does to a package: a declaration that was begun is left alone, and one that is begun is ended. -/
structure Onward (pkg pkg' : Package) : Prop where
  steady : Steady pkg pkg'
  kept : ∀ spec, pkg.progress? spec ≠ some .pending → pkg'.progress? spec = pkg.progress? spec
  ended : ∀ spec, pkg'.progress? spec = some .resolving → pkg.progress? spec = some .resolving

namespace Onward

variable {pkg'' : Package}

theorem of_tasks_eq (h : Steady pkg pkg') (htasks : pkg'.tasks = pkg.tasks) : Onward pkg pkg' := by
  have hprogress := progress?_congr htasks
  exact ⟨h, fun spec _ => hprogress spec, fun spec hspec => (hprogress spec).symm.trans hspec⟩

theorem refl (pkg : Package) : Onward pkg pkg :=
  .of_tasks_eq (.refl pkg) rfl

theorem trans (h : Onward pkg pkg') (h' : Onward pkg' pkg'') : Onward pkg pkg'' := by
  refine ⟨h.steady.trans h'.steady, fun spec hspec => ?_, fun spec hspec => h.ended spec (h'.ended spec hspec)⟩
  have hkept := h.kept spec hspec
  rw [h'.kept spec (by rw [hkept]; exact hspec), hkept]

theorem of_work {self : Option Entry} {es : List Event} (h : Work file self pkg es pkg') : Onward pkg pkg' := by
  refine ⟨h.steady, fun spec hspec => ((h.history spec).quiet hspec).1, fun spec hspec => ?_⟩
  by_cases hpending : pkg.progress? spec = some .pending
  · rcases (h.history spec).once hpending with ⟨hstill, -⟩ | ⟨hdone, -⟩
    · cases hstill.symm.trans hspec
    · cases hdone.symm.trans hspec
  · exact ((h.history spec).quiet hpending).1.symm.trans hspec

theorem begun (h : Onward pkg pkg') (hspec : pkg.Begun spec) : pkg'.Begun spec := by
  have hkept : pkg'.progress? spec = pkg.progress? spec := by
    refine h.kept spec fun hpending => ?_
    obtain hspec | hspec := hspec
    · cases hpending.symm.trans hspec
    · cases hpending.symm.trans hspec
  rw [Package.Begun, hkept]
  exact hspec

end Onward

/-- A condition that resolution does not affect. -/
def Stable (file : ParsedFile) (owns : NodeId → TypeId → Prop) (P : Package → Prop) : Prop :=
  ∀ ⦃pkg pkg' : Package⦄, pkg.Tame file owns → Onward pkg pkg' → P pkg → P pkg'

section

variable {P Q : Package → Prop}

theorem Package.Tame.extends (h : pkg.Tame file owns) (honward : Onward pkg pkg') : Extends pkg.types pkg'.types :=
  (honward.steady.reaches.grows h.regular.toSound).toExtends

theorem stable_true : Stable file owns fun _ => True :=
  fun _ _ _ _ _ => trivial

theorem Stable.and (hP : Stable file owns P) (hQ : Stable file owns Q) : Stable file owns fun pkg => P pkg ∧ Q pkg :=
  fun _ _ htame honward h => ⟨hP htame honward h.1, hQ htame honward h.2⟩

theorem stable_forall {ι : Type} {P : ι → Package → Prop} (h : ∀ i, Stable file owns (P i)) :
    Stable file owns fun pkg => ∀ i, P i pkg :=
  fun _ _ htame honward hP i => h i htame honward (hP i)

theorem Stable.imp {p : Prop} (h : Stable file owns P) : Stable file owns fun pkg => p → P pkg :=
  fun _ _ htame honward hP hp => h htame honward (hP hp)

theorem stable_knows (t : TypeId) : Stable file owns fun pkg => pkg.types.Knows t :=
  fun _ _ htame honward ht => (htame.extends honward).knows ht

theorem stable_knownIfSome (o : Option TypeId) : Stable file owns (KnownIfSome o) :=
  fun _ _ htame honward ho t ht => stable_knows t htame honward (ho t ht)

theorem stable_leads (x : NodeId) : Stable file owns fun pkg => pkg.Leads file x :=
  fun _ _ _ honward hlead entry hentry hrole hspec => hlead entry hentry hrole (honward.ended _ hspec)

/-- A declaration that is no longer pending. -/
theorem stable_progress (spec : NodeId) : Stable file owns fun pkg => pkg.progress? spec ≠ some .pending := by
  intro pkg pkg' _ honward hspec
  rw [honward.kept spec hspec]
  exact hspec

/-- No declaration is under way. -/
theorem stable_idle : Stable file owns fun pkg => ∀ spec, pkg.progress? spec ≠ some .resolving :=
  fun _ _ _ honward hidle spec hspec => hidle spec (honward.ended spec hspec)

end

/-- A type that is known and traced to a node. -/
structure Seen (file : ParsedFile) (owns : NodeId → TypeId → Prop) (x : NodeId) (t : TypeId) (pkg : Package) :
    Prop where
  knows : pkg.types.Knows t
  traced : pkg.Traced file owns x t

theorem Seen.refers {pkg : Package} (h : Seen file owns x t pkg) (hyx : file.Refers y x) : Seen file owns y t pkg :=
  ⟨h.knows, h.traced.refers (.single hyx)⟩

theorem stable_seen (x : NodeId) (t : TypeId) : Stable file owns (Seen file owns x t) := by
  intro pkg pkg' htame honward h
  have hext := htame.extends honward
  exact ⟨hext.knows h.knows, h.traced.later htame.regular.toSound h.knows hext fun _ => honward.begun⟩

/-- A type that other types can be built of. -/
structure Usable (file : ParsedFile) (owns : NodeId → TypeId → Prop) (x : NodeId) (t : TypeId) (pkg : Package) :
    Prop extends Seen file owns x t pkg where
  valid : pkg.types.shape t ≠ .basic .invalid

theorem stable_usable (x : NodeId) (t : TypeId) : Stable file owns (Usable file owns x t) :=
  fun _ _ htame honward h => ⟨stable_seen x t htame honward h.toSeen, (htame.extends honward).valid h.valid⟩

theorem stable_ready (t : TypeId) : Stable file owns fun pkg => pkg.types.Knows t ∧ pkg.types.Ready t := by
  rintro pkg pkg' htame honward ⟨ht, hready⟩
  have hadvances := honward.steady.reaches.advances htame.tidy.toFaithful
  refine ⟨hadvances.knows ht, hready.extends ht hadvances.toExtends fun {s} hs => ?_⟩
  rw [hadvances.frozen hs]
  exact hs

/-! ### Actions -/

variable {α β : Type}

/-- How an action ends in a tame package: with an answer or a fault, and then the package is tame; or for good.  No
type is found to be recursive. -/
def Leaves (file : ParsedFile) (owns : NodeId → TypeId → Prop) (pkg : Package) (Q : α → Package → Prop) :
    Except Failure α × Package → Prop
  | (.ok x, pkg') => pkg'.Tame file owns ∧ Onward pkg pkg' ∧ Q x pkg'
  | (.error (.declaration d), pkg') => pkg'.Tame file owns ∧ Onward pkg pkg' ∧ d.cause.isRecursive = false
  | (.error (.construction _), pkg') => pkg'.Clean

/-- What an action does, from tame packages with `P` to packages with `Q`. -/
def Keeps (file : ParsedFile) (owns : NodeId → TypeId → Prop) (P : Package → Prop) (action : ResolveM α)
    (Q : α → Package → Prop) : Prop :=
  ∀ pkg : Package, pkg.Tame file owns → P pkg → Leaves file owns pkg Q (action file pkg)

/-- What was done before. -/
theorem Leaves.after {Q : α → Package → Prop} {result : Except Failure α × Package} (honward : Onward pkg pkg')
    (h : Leaves file owns pkg' Q result) : Leaves file owns pkg Q result := by
  rcases result with ⟨(d | fault) | x, pkg''⟩
  · exact ⟨h.1, honward.trans h.2.1, h.2.2⟩
  · exact h
  · exact ⟨h.1, honward.trans h.2.1, h.2.2⟩

theorem Leaves.clean {Q : α → Package → Prop} {result : Except Failure α × Package}
    (h : Leaves file owns pkg Q result) : result.2.Clean := by
  rcases result with ⟨(d | fault) | x, pkg'⟩
  · exact h.1.clean
  · exact h
  · exact h.1.clean

namespace Keeps

variable {P P' : Package → Prop} {a : ResolveM α} {Q Q' : α → Package → Prop}

theorem mono (h : Keeps file owns P a Q) (hQ : ∀ x pkg, pkg.Tame file owns → Q x pkg → Q' x pkg) :
    Keeps file owns P a Q' := by
  intro pkg htame hpkg
  have hleaves := h pkg htame hpkg
  rcases hrun : a file pkg with ⟨(d | fault) | x, pkg'⟩
  · rw [hrun] at hleaves
    exact hleaves
  · rw [hrun] at hleaves
    exact hleaves
  · rw [hrun] at hleaves
    exact ⟨hleaves.1, hleaves.2.1, hQ x pkg' hleaves.1 hleaves.2.2⟩

theorem pre (h : Keeps file owns P a Q) (hP : ∀ pkg, pkg.Tame file owns → P' pkg → P pkg) : Keeps file owns P' a Q :=
  fun pkg htame hpkg => h pkg htame (hP pkg htame hpkg)

theorem pure {x : α} (h : ∀ pkg, pkg.Tame file owns → P pkg → Q x pkg) : Keeps file owns P (Pure.pure x) Q :=
  fun pkg htame hpkg => ⟨htame, .refl pkg, h pkg htame hpkg⟩

/-- One action after another. -/
theorem bind {f : α → ResolveM β} {R : β → Package → Prop} (h : Keeps file owns P a Q) (hP : Stable file owns P)
    (hf : ∀ x, Keeps file owns (fun pkg => P pkg ∧ Q x pkg) (f x) R) : Keeps file owns P (a >>= f) R := by
  intro pkg htame hpkg
  have hleaves := h pkg htame hpkg
  rw [ResolveM.bind_run]
  rcases hrun : a file pkg with ⟨(d | fault) | x, pkg'⟩
  · rw [hrun] at hleaves
    exact hleaves
  · rw [hrun] at hleaves
    exact hleaves
  · rw [hrun] at hleaves
    obtain ⟨htame', honward, hq⟩ := hleaves
    exact (hf x pkg' htame' ⟨hP htame honward hpkg, hq⟩).after honward

theorem map {f : α → β} {R : β → Package → Prop} (h : Keeps file owns P a Q)
    (hf : ∀ x pkg, pkg.Tame file owns → Q x pkg → R (f x) pkg) : Keeps file owns P (f <$> a) R := by
  intro pkg htame hpkg
  have hleaves := h pkg htame hpkg
  rw [map_eq_pure_bind, ResolveM.bind_run]
  rcases hrun : a file pkg with ⟨(d | fault) | x, pkg'⟩
  · rw [hrun] at hleaves
    exact hleaves
  · rw [hrun] at hleaves
    exact hleaves
  · rw [hrun] at hleaves
    exact ⟨hleaves.1, hleaves.2.1, hf x pkg' hleaves.1 hleaves.2.2⟩

theorem ite {p : Prop} [Decidable p] {b : ResolveM α} (ha : p → Keeps file owns P a Q)
    (hb : ¬ p → Keeps file owns P b Q) : Keeps file owns P (if p then a else b) Q := by
  by_cases hp : p
  · rw [if_pos hp]
    exact ha hp
  · rw [if_neg hp]
    exact hb hp

theorem fail {node : NodeId} {cause : SemanticFault} (hcause : cause.isRecursive = false) :
    Keeps file owns P (ResolveM.fail node cause : ResolveM α) Q :=
  fun pkg htame _ => ⟨htame, .refl pkg, hcause⟩

/-- A condition whose violation ends the work. -/
theorem check {p : Prop} [Decidable p] {node : NodeId} {cause : SemanticFault} {f : Unit → ResolveM α}
    (hcause : cause.isRecursive = false) (h : ¬ p → Keeps file owns P (f ()) Q) :
    Keeps file owns P (if p then ResolveM.fail node cause >>= f else f ()) Q :=
  ite (fun _ pkg htame _ => ⟨htame, .refl pkg, hcause⟩) h

theorem tree {f : Tree → ResolveM β} {R : β → Package → Prop} (h : Keeps file owns P (f file.tree) R) :
    Keeps file owns P (ResolveM.tree >>= f) R :=
  fun pkg htame hpkg => h pkg htame hpkg

theorem get {f : Package → ResolveM β} {R : β → Package → Prop}
    (h : ∀ q : Package, q.Tame file owns → P q → Keeps file owns (fun pkg => P pkg ∧ pkg = q) (f q) R) :
    Keeps file owns P (MonadState.get >>= f) R :=
  fun pkg htame hpkg => h pkg htame hpkg pkg htame ⟨hpkg, rfl⟩

theorem types {f : TypeTable → ResolveM β} {R : β → Package → Prop}
    (h : ∀ tt : TypeTable, Keeps file owns (fun pkg => P pkg ∧ pkg.types = tt) (f tt) R) :
    Keeps file owns P (ResolveM.types >>= f) R :=
  fun pkg htame hpkg => h pkg.types pkg htame ⟨hpkg, rfl⟩

theorem part {id : NodeId} {place : Nat} {f : NodeId → ResolveM β} {R : β → Package → Prop}
    (h : ∀ c, file.tree.part? id place = some c → Keeps file owns P (f c) R) :
    Keeps file owns P (ResolveM.part id place >>= f) R := by
  intro pkg htame hpkg
  rw [ResolveM.bind_run]
  cases hpart : file.tree.part? id place with
  | some c =>
      rw [ResolveM.part_run hpart]
      exact h c hpart pkg htame hpkg
  | none =>
      have hrun : ResolveM.part id place file pkg =
          (ResolveM.fail id (.incomplete (file.tree.render id)) : ResolveM NodeId) file pkg := by
        rw [ResolveM.part, ResolveM.run_bind (ResolveM.tree_run file pkg), hpart]
      rw [hrun]
      exact ⟨htame, .refl pkg, rfl⟩

/-- An action for each of a list. -/
theorem forM {f : β → ResolveM Unit} {R : β → Package → Prop} (xs : List β) (hP : Stable file owns P)
    (hR : ∀ x, Stable file owns (R x)) (h : ∀ x ∈ xs, Keeps file owns P (f x) fun _ => R x) :
    Keeps file owns P (xs.forM f) fun _ pkg => ∀ x ∈ xs, R x pkg := by
  induction xs with
  | nil => exact .pure fun _ _ _ x hx => absurd hx List.not_mem_nil
  | cons x rest ih =>
      have hrest := ih fun y hy => h y (List.mem_cons_of_mem _ hy)
      refine (h x List.mem_cons_self).bind hP fun _ pkg htame hpkg => ?_
      -- What was reached for the first is not lost with the others.
      have hfirst : Keeps file owns (fun pkg => P pkg ∧ R x pkg) (rest.forM f >>= Pure.pure) fun _ pkg =>
          ∀ y ∈ x :: rest, R y pkg := by
        refine (hrest.pre fun _ _ hpkg => hpkg.1).bind (hP.and (hR x)) fun _ => .pure fun pkg _ hpkg y hy => ?_
        obtain rfl | hy := List.mem_cons.1 hy
        · exact hpkg.1.2
        · exact hpkg.2 y hy
      rw [bind_pure] at hfirst
      exact hfirst pkg htame hpkg

end Keeps

/-! ### Building types -/

/-- An operation on the types keeps the package tame, and has an answer with `Q` if it is granted. -/
def Constructs (file : ParsedFile) (owns : NodeId → TypeId → Prop) (pkg : Package) (action : TypeM α)
    (Q : α → Package → Prop) : Prop :=
  ({ pkg with types := (action pkg.types).2 } : Package).Tame file owns ∧
    Onward pkg { pkg with types := (action pkg.types).2 } ∧
    ∀ t, (action pkg.types).1 = .ok t → Q t { pkg with types := (action pkg.types).2 }

namespace Keeps

variable {P : Package → Prop} {action : TypeM α} {Q : α → Package → Prop}

theorem build (h : ∀ pkg, pkg.Tame file owns → P pkg → Constructs file owns pkg action Q) :
    Keeps file owns P (ResolveM.build action) Q := by
  intro pkg htame hpkg
  obtain ⟨htame', honward, hgranted⟩ := h pkg htame hpkg
  rw [ResolveM.build, ResolveM.bind_run, Does.onTypes_eq]
  dsimp only
  cases houtcome : (action pkg.types).1 with
  | ok t => exact ⟨htame', honward, hgranted t houtcome⟩
  | error fault => exact htame'.clean

/-- A refusal is no recursion, whether it is a fault of the source or not. -/
theorem buildAt {node : NodeId} (h : ∀ pkg, pkg.Tame file owns → P pkg → Constructs file owns pkg action Q) :
    Keeps file owns P (ResolveM.buildAt node action) Q := by
  intro pkg htame hpkg
  obtain ⟨htame', honward, hgranted⟩ := h pkg htame hpkg
  rw [ResolveM.buildAt, ResolveM.bind_run, Does.onTypes_eq]
  dsimp only
  cases houtcome : (action pkg.types).1 with
  | ok t => exact ⟨htame', honward, hgranted t houtcome⟩
  | error fault =>
      cases fault with
      | arrayTooLarge | duplicateMethod | notAnInterface | incompleteEmbedded => exact ⟨htame', honward, rfl⟩
      | _ => exact htame'.clean

end Keeps

/-- A built type that can be used. -/
def Made (file : ParsedFile) (owns : NodeId → TypeId → Prop) (x : NodeId) (t : TypeId) (pkg : Package) : Prop :=
  Usable file owns x t pkg ∧ (pkg.types.shape t).isDeclared = false

section

variable {action : TypeM TypeId} {s : Shape}

theorem Package.Tame.refused {Q : TypeId → Package → Prop} (h : pkg.Tame file owns) {fault : TypeFault}
    (hrun : action pkg.types = (.error fault, pkg.types)) : Constructs file owns pkg action Q := by
  rw [Constructs, hrun]
  exact ⟨h, .refl pkg, fun t ht => by cases ht⟩

/-- A type that is built of types that can be used can be used. -/
theorem Package.Tame.interned (h : pkg.Tame file owns) (op : Operation) (hrun : action pkg.types = intern s pkg.types)
    (hop : op.run pkg.types = (action pkg.types).2) (hknown : ∀ t ∈ op.handles, pkg.types.Knows t)
    (hbuilt : s.isDeclared = false) (hvalid : s ≠ .basic .invalid)
    (hparts : ∀ part ∈ s.components, Usable file owns x part pkg) (htidy : (intern s pkg.types).2.Tidy) :
    Constructs file owns pkg action (Made file owns x) := by
  rw [hrun] at hop
  rw [Constructs, hrun]
  have hbuilds : pkg.types.Builds (intern s pkg.types).2 :=
    ⟨Reaches.after .refl op hknown hop, fun t ht => shape_intern_of_knows s ht⟩
  have honward : Onward pkg { pkg with types := (intern s pkg.types).2 } :=
    .of_tasks_eq ⟨rfl, rfl, rfl, rfl, hbuilds.reaches⟩ rfl
  refine ⟨h.build hbuilds htidy, honward, fun t ht => ?_⟩
  obtain ⟨hknows, hs⟩ := (h.regular.toSound.intern hbuilt fun part hpart => (hparts part hpart).knows).2 t ht
  have hdeclared : ((intern s pkg.types).2.shape t).isDeclared = false := by
    rw [hs]
    exact hbuilt
  refine ⟨⟨⟨hknows, .of_parts hdeclared fun part hpart => ?_⟩, by rw [hs]; exact hvalid⟩, hdeclared⟩
  have hpart : part ∈ ((intern s pkg.types).2.shape t).components := hpart
  rw [hs] at hpart
  exact (stable_usable x part h honward (hparts part hpart)).traced

/-- A type that is no array. -/
theorem Package.Tame.constructs (h : pkg.Tame file owns) (op : Operation)
    (hrun : action pkg.types = intern s pkg.types) (hop : op.run pkg.types = (action pkg.types).2)
    (hknown : ∀ t ∈ op.handles, pkg.types.Knows t) (hbuilt : s.isDeclared = false) (hvalid : s ≠ .basic .invalid)
    (harray : ∀ e n, s ≠ .array e n) (hparts : ∀ part ∈ s.components, Usable file owns x part pkg) :
    Constructs file owns pkg action (Made file owns x) :=
  h.interned op hrun hop hknown hbuilt hvalid hparts
    (h.tidy.intern hbuilt (fun part hpart => (hparts part hpart).knows) (fun part hpart => (hparts part hpart).valid)
      harray)

end

end GoSource
