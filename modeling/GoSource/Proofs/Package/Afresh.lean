import GoSource.Proofs.Package.Blind
import GoSource.Proofs.Package.Isolation
import GoSource.Proofs.Typing.Pristine

/-!
# Resolving again starts afresh

The types stay from file to file, and with them what is known about their values.  None of this shows in what is made
of the next file.

* **`mimics_newUniverse`**: the universe is made in the same way over every table.
* **`Package.Session.mirrored`**: after any history, the types of a package mirror those of a new one.
* **`Package.Alike`**: packages that cannot be told apart, whatever the handles of their types.
* **`resolved_afresh`**: a file that is resolved after another one is resolved as in a new package.
-/

namespace GoSource

open TypeTable

variable {w : World} {start : Nat} {base : TypeId → Prop} {tt : TypeTable} {target : Target}

/-! ### The universe -/

theorem mimics_newErrorType : Mimics (Matches start base) w World.Twin newErrorType newErrorType := by
  refine mimics_assume fun big hbig => ?_
  have hstring : w.Twin (basic .string) (basic .string) := (hbig.basic_eq .string).imp id Eq.symm
  refine (mimics_newFunc .nil (.cons hstring .nil) (by decide) (by simp)).bind fun w₁ _ sig sig' hsig => ?_
  refine (mimics_newInterface .nil (.cons (hsig.method "Error" "") .nil)).bind fun w₂ _ i i' hi => ?_
  have hnamed : Mimics (Matches start base) w₂ World.Twin (liftM (newNamed "" "error") : TypeM TypeId)
      (liftM (newNamed "" "error")) := by
    intro small big h
    obtain ⟨w₃, hlater, hmatches, ht⟩ := h.newNamed "" "error"
    exact ⟨w₃, hlater, hmatches, .ok ht⟩
  refine hnamed.bind fun w₃ hlater error error' herror => ?_
  refine (mimics_setUnderlying herror (hi.later hlater)).bind fun w₄ hlater' _ _ _ => ?_
  exact .pure (herror.later hlater')

theorem mimics_builtins (specs : List (String × Nat × Nat × Bool)) :
    Mimics (Matches start base) w (fun w' => List.Forall₂ w'.TwinObject)
      (specs.mapM fun (name, inputs, outputs, variadic) => Object.builtin name inputs outputs variadic)
      (specs.mapM fun (name, inputs, outputs, variadic) => Object.builtin name inputs outputs variadic) := by
  induction specs generalizing w with
  | nil => exact .pure .nil
  | cons spec specs ih =>
      obtain ⟨name, inputs, outputs, variadic⟩ := spec
      have hhead : Mimics (Matches start base) w World.TwinObject (Object.builtin name inputs outputs variadic)
          (Object.builtin name inputs outputs variadic) :=
        (mimics_newBuiltin name inputs outputs variadic).bind fun w' _ t a ht => .pure ⟨some a, .some ht, rfl⟩
      rw [List.mapM_cons]
      refine hhead.bind fun w₁ _ obj obj' hobj => ih.bind fun w₂ hlater rest rest' hrest => ?_
      exact .pure (.cons (hobj.later hlater) hrest)

/-- The predeclared names stand for corresponding things. -/
theorem twins_predeclaredNames {big : TypeTable} (h : Mirrors start base w.names w.types big) {any any' error error' : TypeId}
    (hany : w.Twin any any') (herror : w.Twin error error') :
    List.Forall₂ w.TwinObject (predeclaredNames any error) (predeclaredNames any' error') := by
  have htype (name : String) {t a : TypeId} (ht : w.Twin t a) :
      w.TwinObject (.predeclaredType name t) (.predeclaredType name a) := ⟨some a, .some ht, rfl⟩
  have hbasic (k : Kind) : w.Twin (basic k) (basic k) := (h.basic_eq k).imp id Eq.symm
  have htruth (name : String) : w.TwinObject (.truth name) (.truth name) := ⟨_, .some (hbasic _), rfl⟩
  have hnil : w.TwinObject .nil .nil := ⟨_, .some (hbasic _), rfl⟩
  refine List.rel_append ?_ ?_
  · rw [kindTypes, List.forall₂_map_left_iff, List.forall₂_map_right_iff]
    exact List.forall₂_same.2 fun k _ => htype k.name (hbasic k)
  · exact .cons (htype _ (hbasic _)) (.cons (htype _ (hbasic _)) (.cons (htype _ hany) (.cons (htype _ herror)
      (.cons (htruth _) (.cons (htruth _) (.cons hnil .nil))))))

theorem mimics_newUniverse :
    Mimics (Matches start base) w (fun w' => List.Forall₂ w'.TwinObject) newUniverse newUniverse := by
  refine (mimics_newInterface .nil .nil).bind fun w₁ _ any any' hany => ?_
  refine mimics_newErrorType.bind fun w₂ hlater error error' herror => ?_
  refine (mimics_builtins builtins).bind fun w₃ hlater' functions functions' hfunctions => ?_
  refine mimics_assume fun big hbig => .pure (List.rel_append ?_ hfunctions)
  exact twins_predeclaredNames hbig (hany.later (hlater.trans hlater')) (herror.later hlater')

/-- A new package, whatever types there are already, mirrors one over a new table. -/
theorem new_mirrored (h : Reaches (TypeTable.new target) tt) :
    ∃ w, Matches tt.types.size (fun _ => False) w (Package.new (TypeTable.new target)).types (Package.new tt).types ∧
      List.Forall₂ w.TwinObject (Package.new (TypeTable.new target)).outer (Package.new tt).outer := by
  have hmatches : Matches tt.types.size (fun _ => False) ⟨TypeTable.new target, id⟩ (TypeTable.new target) tt :=
    ⟨rfl, mirrors_new h⟩
  obtain ⟨w, -, htypes, hagree⟩ := mimics_newUniverse _ _ hmatches
  refine ⟨w, htypes, ?_⟩
  show List.Forall₂ w.TwinObject ((newUniverse (TypeTable.new target)).1.toOption.getD [])
    ((newUniverse tt).1.toOption.getD [])
  generalize (newUniverse (TypeTable.new target)).1 = outcome, (newUniverse tt).1 = outcome' at hagree
  cases hagree with
  | ok houter => exact houter
  | error => exact .nil

/-- In a new package over a new table, there is nothing left to find out but about `error`. -/
theorem pristine_new (target : Target) : ∃ e, (Package.new (TypeTable.new target)).types.Pristine e := by
  obtain ⟨any, error, functions, -, -, i, sig, ms, hs, hi, -⟩ := new_run (sound_new target)
  have hfacts : let tt := (Package.new (TypeTable.new target)).types
      (∀ n < tt.types.size, ∀ k < tt.types.size,
        (tt.shape ⟨n⟩).isDeclared = true → (tt.shape ⟨k⟩).isDeclared = true → n = k) ∧
      (∀ n < tt.types.size, invalid ∉ (tt.shape ⟨n⟩).components) ∧
      ∀ n < tt.types.size, (tt.shape ⟨n⟩).isDeclared = false → n ≠ invalid.index → (tt.layout ⟨n⟩).isComplete = true := by
    cases target <;> decide +kernel
  obtain ⟨hunique, hparts, hcomplete⟩ := hfacts
  have hbuilt (t : TypeId) (ht : t.index < (Package.new (TypeTable.new target)).types.types.size) (hne : t ≠ error) :
      ((Package.new (TypeTable.new target)).types.shape t).isDeclared = false := by
    by_contra hdeclared
    have herror : (Package.new (TypeTable.new target)).types.Knows error := knows_of_shape_ne (by simp [hs])
    exact hne (eq_of_index (hunique t.index ht error.index herror (by simpa using hdeclared) (by rw [hs]; rfl)))
  refine ⟨error, ⟨"", "error", i, ms, _, hs, hi⟩, hbuilt, fun t ht => hparts t.index ht, fun t ht hne hvalid => ?_⟩
  exact hcomplete t.index ht (hbuilt t ht hne) fun heq => hvalid (eq_of_index heq)

/-! ### The history of a package -/

/-- Collecting names leaves the universe and the path as they are, and makes types only. -/
theorem collects_reaches (file : ParsedFile) (pkg : Package) :
    Package.Collects file fun pkg' => pkg'.outer = pkg.outer ∧ pkg'.path = pkg.path ∧ Reaches pkg.types pkg'.types := by
  have hrest {pkg' : Package} (h : pkg'.outer = pkg.outer ∧ pkg'.path = pkg.path ∧ Reaches pkg.types pkg'.types)
      (role : Role) (spec node : NodeId) (typ : Option TypeId) (anonymous : Bool) :
      let name := file.tree.literal node
      let entry : Entry := { name := node, spec, role }
      let declared := if !anonymous && pkg'.isTaken name then pkg'.report file node (.redeclared name)
        else (pkg'.enter anonymous entry { name, role, typ, decl := some spec }).schedule entry
      declared.outer = pkg.outer ∧ declared.path = pkg.path ∧ Reaches pkg.types declared.types := by
    intro name entry declared
    unfold declared
    split
    · exact h
    · rw [Package.schedule]
      split
      · exact h
      · exact h
  refine ⟨fun _ _ h => h, fun _ _ _ _ _ _ h => h, fun {pkg' role spec node} _ h => ?_⟩
  unfold Package.declare
  split
  · exact h
  · split
    · obtain ⟨houter, hpath, hreaches⟩ := h
      have hmade : (pkg'.newType (file.tree.literal node)).2.outer = pkg.outer ∧
          (pkg'.newType (file.tree.literal node)).2.path = pkg.path ∧
          Reaches pkg.types (pkg'.newType (file.tree.literal node)).2.types :=
        ⟨houter, hpath, hreaches.after (.named pkg'.path (file.tree.literal node)) (by simp [Operation.handles]) rfl⟩
      exact hrest hmade _ _ _ _ _
    · exact hrest h _ _ _ _ _

/-- The package in which the names of a file are collected. -/
theorem Package.collected_reaches (pkg : Package) {file : ParsedFile} {decls : List NodeId}
    (hdecls : ∀ decl ∈ decls, decl ∈ file.decls) :
    (pkg.collected file decls).outer = pkg.outer ∧ (pkg.collected file decls).path = Package.pathOf file.tree decls ∧
      Reaches pkg.types (pkg.collected file decls).types :=
  (collects_reaches file (pkg.reset (Package.pathOf file.tree decls))).collected ⟨rfl, rfl, .refl⟩ hdecls

/-- All work on a file leaves the universe as it is. -/
theorem resolveDecls_reaches {pkg : Package} (hpkg : pkg.Session) {file : ParsedFile} (hfile : file.Parsed)
    {decls : List NodeId} (hdecls : ∀ decl ∈ decls, decl ∈ file.decls) :
    (pkg.resolveDecls file decls).2.outer = pkg.outer ∧ Reaches pkg.types (pkg.resolveDecls file decls).2.types := by
  obtain ⟨houter₁, -, hreaches₁⟩ := pkg.collected_reaches hdecls
  obtain ⟨es, pkg₂, blamed₃, pkg₃, blamed₄, pkg₄, hrun, -, hwork, -, hmethods, htypes⟩ | ⟨-, houter₂, hreaches₂⟩ :=
    resolveDecls_ends hpkg.ready hfile hdecls
  · obtain ⟨houter₃, hreaches₃⟩ := hmethods.reaches
    obtain ⟨houter₄, hreaches₄⟩ := htypes.reaches
    rw [hrun]
    refine ⟨houter₄.trans (houter₃.trans (hwork.steady.outer_eq.trans houter₁)), ?_⟩
    exact hreaches₁.trans (hwork.steady.reaches.trans (hreaches₃.trans hreaches₄))
  · exact ⟨houter₂.trans houter₁, hreaches₁.trans hreaches₂⟩

/-- A package was new once, and what happened since has made types and found out about them. -/
theorem Package.Session.origin {pkg : Package} (h : pkg.Session) :
    ∃ tt, Reachable tt ∧ pkg.outer = (Package.new tt).outer ∧ Reaches (Package.new tt).types pkg.types := by
  induction h with
  | @new tt h => exact ⟨tt, h, rfl, .refl⟩
  | resolved hpkg hfile hdecls ih =>
      obtain ⟨tt, htt, houter, hreaches⟩ := ih
      obtain ⟨houter', hreaches'⟩ := resolveDecls_reaches hpkg hfile hdecls
      exact ⟨tt, htt, houter'.trans houter, hreaches.trans hreaches'⟩
  | operation _ op hknown ih =>
      obtain ⟨tt, htt, houter, hreaches⟩ := ih
      exact ⟨tt, htt, houter, hreaches.step op hknown⟩

/-- The types of a package were made by operations only. -/
theorem Package.Session.reachable {pkg : Package} (h : pkg.Session) : Reachable pkg.types := by
  obtain ⟨tt, ⟨target, htt⟩, -, hreaches⟩ := h.origin
  obtain ⟨-, -, -, -, hnew, -⟩ := new_run (htt.grows (sound_new target)).sound
  exact ⟨target, (htt.trans hnew).trans hreaches⟩

/-- After any history, the types of a package mirror those of a new one. -/
theorem Package.Session.mirrored {pkg : Package} (h : pkg.Session) :
    ∃ base w, Matches pkg.types.types.size base w (Package.new (TypeTable.new pkg.types.target)).types pkg.types ∧
      List.Forall₂ w.TwinObject (Package.new (TypeTable.new pkg.types.target)).outer pkg.outer := by
  obtain ⟨tt, ⟨target, htt⟩, houter, hreaches⟩ := h.origin
  obtain ⟨w, ⟨htypes, hmirrors⟩, hobjects⟩ := new_mirrored htt
  have hnew {tt : TypeTable} (h : Reaches (TypeTable.new target) tt) :
      Reaches (TypeTable.new target) (Package.new tt).types ∧ (Package.new tt).types.Blank := by
    obtain ⟨-, -, -, -, hreach, -⟩ := new_run (h.grows (sound_new target)).sound
    exact ⟨h.trans hreach, (blank_new target).1.reaches (blank_new target).2 (sound_new target) (h.trans hreach)⟩
  have htarget : pkg.types.target = target :=
    (((hnew htt).1.trans hreaches).advances (faithful_new target)).target_eq
  obtain ⟨e, he⟩ := pristine_new target
  rw [htarget, houter]
  exact ⟨(· = w.names e), w, ⟨htypes, he.mirrors hmirrors (hnew .refl).2 (hnew htt).2 hreaches⟩, hobjects⟩

/-! ### What there is to see -/

/-- What there is to see of an entity: all but the handle of its type, which is spelled. -/
structure Sight where
  name : String
  role : Role
  typ : Option String
  value : Option ConstValue
  decl : Option NodeId
  deriving DecidableEq, Repr

/-- An entity of a package, as it is seen. -/
def Package.sight (pkg : Package) (obj : Object) : Sight :=
  { name := obj.name, role := obj.role, typ := obj.typ.map pkg.types.spell, value := obj.value, decl := obj.decl }

/-- Packages that cannot be told apart, whatever the handles of their types. -/
structure Package.Alike (pkg pkg' : Package) : Prop where
  path_eq : pkg'.path = pkg.path
  objects_eq : ∀ id, (pkg'.objects.get? id).map pkg'.sight = (pkg.objects.get? id).map pkg.sight
  lookup_eq : ∀ name, (pkg'.lookup name).map pkg'.sight = (pkg.lookup name).map pkg.sight
  faults_eq : pkg'.faults = pkg.faults

namespace Pairs

variable {pkg pkg' : Package}

theorem sight_eq (h : Pairs start base w pkg pkg') {obj obj' : Object} (hobj : w.TwinObject obj obj') :
    pkg'.sight obj' = pkg.sight obj := by
  obtain ⟨typ, htyp, rfl⟩ := hobj
  obtain ⟨hx, rfl⟩ | ⟨t, a, hx, rfl, ht⟩ := rel_cases htyp
  · rw [Package.sight, Package.sight, hx, Option.map_none, Option.map_none]
  · have hspell : pkg'.types.spell a = pkg.types.spell t := by rw [ht.2, h.mirrors.spell_eq ht.1, h.types.1]
    rw [Package.sight, Package.sight, hx, Option.map_some, Option.map_some, hspell]

theorem sights_eq (h : Pairs start base w pkg pkg') {x y : Option Object} (hxy : Option.Rel w.TwinObject x y) :
    y.map pkg'.sight = x.map pkg.sight := by
  cases hxy with
  | none => rfl
  | some hobj => exact congrArg some (h.sight_eq hobj)

/-- Packages that correspond look the same. -/
theorem alike (h : Pairs start base w pkg pkg') : pkg.Alike pkg' := by
  refine ⟨h.path_eq, fun id => h.sights_eq (h.objects id), fun name => h.sights_eq ?_, h.faults_eq⟩
  rw [Package.lookup, Package.lookup, h.declared?_eq]
  cases pkg.declared? name with
  | none => exact h.predeclared? name
  | some entry => exact h.objects entry.name

end Pairs

/-- A file is resolved in the same way whatever was resolved before it, by whatever outcome: what is seen afterwards is
what is seen in a new package, over a new table for the same architecture. -/
theorem resolved_afresh {pkg pkg₁ : Package} {file₁ : ParsedFile} {outcome₁ : Except Failure Unit} (hpkg : pkg.Session)
    (hfile₁ : file₁.Parsed) (h₁ : pkg.resolveFile? file₁ = some (outcome₁, pkg₁)) (file₂ : ParsedFile) :
    Option.Rel (fun new again => again.1 = new.1 ∧ new.2.Alike again.2)
      ((Package.new (TypeTable.new pkg.types.target)).resolveFile? file₂) (pkg₁.resolveFile? file₂) := by
  have hdecls : ∀ decl ∈ file₁.decls, decl ∈ file₁.decls := fun _ h => h
  have hresolved : (pkg.resolveDecls file₁ file₁.decls).2 = pkg₁ := by
    rw [Package.resolveFile?, Package.resolveDecls?] at h₁
    split at h₁
    · cases h₁
    · exact congrArg Prod.snd (Option.some.inj h₁)
  have hsession : pkg₁.Session := hresolved ▸ hpkg.resolved hfile₁ hdecls
  obtain ⟨-, hreaches⟩ := resolveDecls_reaches hpkg hfile₁ hdecls
  rw [hresolved] at hreaches
  obtain ⟨base, w, htypes, houter⟩ := hsession.mirrored
  rw [(hreaches.grows hpkg.ready.regular.toSound).target_eq] at htypes houter
  rw [Package.resolveFile?, Package.resolveFile?, Package.resolveDecls?, Package.resolveDecls?]
  split
  · exact .none
  · obtain ⟨houtcome, w', hpairs⟩ :=
      resolveDecls_blind (c := ⟨file₂, pkg₁.types.types.size, base⟩) file₂.decls htypes houter
    exact .some ⟨houtcome, hpairs.alike⟩

/-- Two files that declare the same name and build some of the same types.  The first one has faults. -/
theorem resolved_afresh_types :
    let file₁ := ParsedFile.ofString "a.go" "package p\ntype T [2]error\ntype U [2]U\nvar x map[string]error\n"
    let file₂ := ParsedFile.ofString "b.go" "package q\ntype T map[string]error\nvar x, y [2]error\nvar z U\n"
    let pkg := Package.new (TypeTable.new .amd64)
    ∃ outcome₁ pkg₁, pkg.resolveFile? file₁ = some (outcome₁, pkg₁) ∧ pkg₁.faults.size = 1 ∧
      (pkg₁.resolveFile? file₂).isSome = true ∧
      Option.Rel (fun new again => again.1 = new.1 ∧ new.2.Alike again.2)
        ((Package.new (TypeTable.new pkg.types.target)).resolveFile? file₂) (pkg₁.resolveFile? file₂) := by
  intro file₁ file₂ pkg
  have hpkg : pkg.Session := .new ⟨.amd64, .refl⟩
  have hfile₁ : file₁.Parsed := ParsedFile.parsed_ofString _ _
  have hfacts : ((pkg.resolveFile? file₁).elim false fun x =>
      x.2.faults.size = 1 && (x.2.resolveFile? file₂).isSome) = true := by
    decide +kernel
  match h₁ : pkg.resolveFile? file₁ with
  | none =>
      rw [h₁] at hfacts
      cases hfacts
  | some (outcome₁, pkg₁) =>
      rw [h₁] at hfacts
      obtain ⟨hfaults, hagain⟩ := Bool.and_eq_true_iff.1 hfacts
      exact ⟨outcome₁, pkg₁, rfl, by simpa using hfaults, hagain, resolved_afresh hpkg hfile₁ h₁ file₂⟩

end GoSource
