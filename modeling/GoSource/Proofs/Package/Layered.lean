import GoSource.Proofs.Package.Careful

/-!
# Declarations of layered files

The declarations of a layered file are resolved without finding a type to be recursive, and so are its methods.

* **`Meanings.resolve_keeps`**: one declaration, whatever it refers to.
* **`careful_unfold`**: the recursion of resolution, unfolded any number of times.
* **`Meanings.method_keeps`**: one method, when no declaration is under way.
-/

namespace GoSource

open TypeTable

variable {file : ParsedFile} {owns : NodeId → TypeId → Prop} {id : NodeId} {P : Package → Prop} {entry : Entry}

/-! ### References of declarations -/

theorem Entry.Fits.definition? {y : NodeId} (h : entry.Fits file) (hrole : entry.role = .type)
    (hy : file.tree.part? entry.spec 1 = some y) : file.definition? entry.spec = some y := by
  cases h with
  | type hdecl hop hspec =>
      rw [ParsedFile.definition?, if_pos, hy]
      exact List.mem_flatMap.2 ⟨_, List.mem_filter.2 ⟨hdecl, by simpa using hop⟩, hspec⟩
  | value _ hop => rcases hop with ⟨-, rfl⟩ | ⟨-, rfl⟩ <;> cases hrole
  | function => cases hrole
  | import_ => cases hrole

/-- A declaration of constants or variables refers to their type and to the values. -/
theorem Entry.Fits.refers_value {y : NodeId} (h : entry.Fits file)
    (hrole : entry.role = .constant ∨ entry.role = .variable)
    (hy : file.tree.part? entry.spec 1 = some y ∨ y ∈ (file.tree.part? entry.spec 2).elim [] file.tree.present) :
    file.Refers entry.spec y := by
  have hspec : entry.spec ∈ file.valueSpecs := by
    cases h with
    | value hdecl hop hspec =>
        refine List.mem_flatMap.2 ⟨_, List.mem_filter.2 ⟨hdecl, ?_⟩, hspec⟩
        simpa using hop.imp And.left And.left
    | type => simp at hrole
    | function => simp at hrole
    | import_ => simp at hrole
  refine ParsedFile.refers_of_initializers (List.mem_append_left _ ?_)
  rw [if_pos hspec, List.mem_append, Option.mem_toList]
  exact hy

theorem Entry.Fits.refers_signature {y : NodeId} (h : entry.Fits file) (hrole : entry.role = .function)
    (hy : file.tree.part? entry.spec 2 = some y) : file.Refers entry.spec y := by
  have hspec : entry.spec ∈ file.decls := by
    cases h with
    | function hspec => exact hspec
    | value _ hop => rcases hop with ⟨-, rfl⟩ | ⟨-, rfl⟩ <;> cases hrole
    | type => cases hrole
    | import_ => cases hrole
  refine ParsedFile.refers_of_initializers (List.mem_append_right _ ?_)
  rw [if_pos hspec, hy]
  exact List.mem_singleton.2 rfl

namespace Package

variable {pkg : Package} {y : NodeId}

/-- What is under way when the declaration of a type is begun. -/
theorem Leads.begin_type (h : pkg.Leads file entry.spec) (hy : file.definition? entry.spec = some y) :
    (pkg.setProgress entry.spec .resolving).Leads file y := by
  intro e he hrole hresolving
  by_cases heq : e.spec = entry.spec
  · exact ⟨y, by rw [heq, hy], .refl⟩
  · rw [progress?_setProgress_of_ne heq] at hresolving
    exact h.step (ParsedFile.refers_of_definition hy) e he hrole hresolving

/-- Other declarations do not count. -/
theorem Leads.begin_value (h : pkg.Leads file entry.spec) (hforest : file.tree.Forest) (hentry : entry.Fits file)
    (hvalue : entry.role ≠ .type) : (pkg.setProgress entry.spec .resolving).Leads file entry.spec := by
  intro e he hrole hresolving
  have hne : e.spec ≠ entry.spec := fun heq => hvalue ((he.role_eq hforest hentry heq).symm.trans hrole)
  rw [progress?_setProgress_of_ne hne] at hresolving
  exact h e he hrole hresolving

end Package

namespace Meanings

variable {m : Meanings} (hm : m.Careful file owns) (hlayered : file.Layered)
include hm

/-! ### Constants, variables and functions -/

section Values

variable (hentry : entry.Fits file) (hrole : entry.role ≠ .type)
include hrole

omit hm in
theorem update_keeps {name : NodeId} {f : Object → Object} (hname : ({ entry with name } : Entry).Fits file)
    (hkeeps : ∀ obj, (f obj).role = obj.role)
    (hf : ∀ pkg, P pkg → ∀ obj t, (f obj).typ = some t → pkg.types.Knows t) :
    Keeps file owns P (ResolveM.update name f) fun _ _ => True :=
  fun pkg htame hpkg =>
    ⟨htame.give hrole hname hkeeps (hf pkg hpkg), .of_tasks_eq ⟨rfl, rfl, rfl, rfl, .refl⟩ rfl, trivial⟩

omit hm hrole in
theorem mismatches_keeps (value declared : TypeId) :
    Keeps file owns P (ResolveM.mismatches value declared) fun _ _ => True :=
  .types fun _ => .pure fun _ _ _ => trivial

theorem constantDecl_keeps {declared : Option TypeId} {name value : NodeId} (hvalue : file.Refers entry.spec value)
    (hname : ({ entry with name } : Entry).Fits file) :
    Keeps file owns (fun pkg => pkg.Leads file entry.spec ∧ KnownIfSome declared pkg)
      (m.constantDecl declared name value) fun _ _ => True := by
  have hstable : Stable file owns fun pkg => pkg.Leads file entry.spec ∧ KnownIfSome declared pkg :=
    (stable_leads entry.spec).and (stable_knownIfSome declared)
  refine ((hm.constant value).pre fun _ _ h => h.1.step hvalue).bind hstable fun x => ?_
  cases declared with
  | none =>
      refine update_keeps hrole hname (fun _ => rfl) ?_
      rintro pkg ⟨-, hx⟩ obj t ⟨⟩
      exact hx
  | some d =>
      refine .types fun tt => Keeps.pre (P := KnownIfSome (some d)) ?_ fun _ _ h => h.1.1.2
      refine (mismatches_keeps x.2 d).bind (stable_knownIfSome (some d)) fun _ => .check rfl fun _ => ?_
      refine update_keeps hrole hname (fun _ => rfl) ?_
      rintro pkg ⟨hd, -⟩ obj t ⟨⟩
      exact hd d rfl

omit hm in
theorem giveVariable_keeps (declared : Option TypeId) {name : NodeId} (inferred : Option (NodeId × TypeId))
    (hname : ({ entry with name } : Entry).Fits file) :
    Keeps file owns (fun pkg => KnownIfSome declared pkg ∧ KnownIfSome (inferred.map Prod.snd) pkg)
      (giveVariable declared name inferred) fun _ _ => True := by
  have hstable : Stable file owns fun pkg => KnownIfSome declared pkg ∧ KnownIfSome (inferred.map Prod.snd) pkg :=
    (stable_knownIfSome declared).and (stable_knownIfSome _)
  have hdeclared : Keeps file owns (fun pkg => KnownIfSome declared pkg ∧ KnownIfSome (inferred.map Prod.snd) pkg)
      (ResolveM.update name ({ · with typ := declared })) fun _ _ => True :=
    update_keeps hrole hname (fun _ => rfl) fun pkg h obj t ht => h.1 t ht
  unfold giveVariable
  cases declared with
  | none =>
      cases inferred with
      | none => exact hdeclared
      | some x =>
          refine .bind (Q := KnownIfSome) ?_ hstable fun typ => ?_
          · exact (defaultType_keeps fun pkg h => h.2 x.2 rfl).map fun _ _ _ h => knownIfSome_some h
          · exact update_keeps hrole hname (fun _ => rfl) fun pkg h obj t ht => h.2 t ht
  | some d =>
      cases inferred with
      | none => exact hdeclared
      | some x =>
          refine (mismatches_keeps x.2 d).bind hstable fun _ => .ite (fun _ => ?_) fun _ => ?_
          · exact .types fun tt => .tree fun pkg htame _ => ⟨htame, .refl pkg, rfl⟩
          · exact hdeclared.pre fun _ _ h => h.1

theorem variableDecl_keeps {declared : Option TypeId} {name : NodeId} {value : Option NodeId}
    (hvalue : ∀ v, value = some v → file.Refers entry.spec v) (hname : ({ entry with name } : Entry).Fits file) :
    Keeps file owns (fun pkg => pkg.Leads file entry.spec ∧ KnownIfSome declared pkg)
      (m.variableDecl declared name value) fun _ _ => True := by
  cases value with
  | none => exact (giveVariable_keeps hrole declared none hname).pre fun pkg _ h => ⟨h.2, knownIfSome_none pkg⟩
  | some v =>
      have hstable : Stable file owns fun pkg => pkg.Leads file entry.spec ∧ KnownIfSome declared pkg :=
        (stable_leads entry.spec).and (stable_knownIfSome declared)
      refine ((hm.value v).pre fun _ _ h => h.1.step (hvalue v rfl)).bind hstable fun o => ?_
      refine (giveVariable_keeps hrole declared (o.map fun t => (v, t)) hname).pre fun pkg _ h => ⟨h.1.2, ?_⟩
      rw [Option.map_map]
      exact Option.map_id'.symm ▸ h.2

theorem constantDecls_keeps {declared : Option TypeId} {names values : List NodeId}
    (hnames : ∀ name ∈ names, ({ entry with name } : Entry).Fits file)
    (hvalues : ∀ v ∈ values, file.Refers entry.spec v) :
    Keeps file owns (fun pkg => pkg.Leads file entry.spec ∧ KnownIfSome declared pkg)
      (m.constantDecls entry.spec declared names values) fun _ _ => True := by
  unfold constantDecls
  refine .check rfl fun _ => .check rfl fun _ => ?_
  refine (Keeps.forM (R := fun _ _ => True) _ ((stable_leads entry.spec).and (stable_knownIfSome declared))
    (fun _ => stable_true) fun x hx => ?_).mono fun _ _ _ _ => trivial
  have hx := List.of_mem_zip hx
  exact constantDecl_keeps hm hrole (hvalues x.2 hx.2) (hnames x.1 hx.1)

theorem variableDecls_keeps {declared : Option TypeId} {names values : List NodeId}
    (hnames : ∀ name ∈ names, ({ entry with name } : Entry).Fits file)
    (hvalues : ∀ v ∈ values, file.Refers entry.spec v) :
    Keeps file owns (fun pkg => pkg.Leads file entry.spec ∧ KnownIfSome declared pkg)
      (m.variableDecls entry.spec declared names values) fun _ _ => True := by
  unfold variableDecls
  refine .check rfl fun _ => ?_
  refine (Keeps.forM (R := fun _ _ => True) _ ((stable_leads entry.spec).and (stable_knownIfSome declared))
    (fun _ => stable_true) fun x hx => ?_).mono fun _ _ _ _ => trivial
  exact variableDecl_keeps hm hrole (fun v hv => hvalues v (List.mem_of_getElem? hv))
    (hnames x.1 (List.fst_mem_of_mem_zipIdx hx))

omit hrole in
include hentry in
theorem valueSpec_keeps (hvalue : entry.role = .constant ∨ entry.role = .variable) :
    Keeps file owns (·.Leads file entry.spec) (m.valueSpec entry) fun _ _ => True := by
  have hrole : entry.role ≠ .type := by
    intro htype
    rw [htype] at hvalue
    simp at hvalue
  have hnames : ∀ name ∈ (file.tree.part? entry.spec 0).elim [] file.tree.present,
      ({ entry with name } : Entry).Fits file := fun name hname => hentry.named hvalue hname
  have hvalues : ∀ v ∈ (file.tree.part? entry.spec 2).elim [] file.tree.present, file.Refers entry.spec v :=
    fun v hv => hentry.refers_value hvalue (.inr hv)
  have hdecls (declared : Option TypeId) :=
    Keeps.ite (P := fun pkg => pkg.Leads file entry.spec ∧ KnownIfSome declared pkg) (p := entry.role = .constant)
      (fun _ => constantDecls_keeps hm hrole hnames hvalues) fun _ => variableDecls_keeps hm hrole hnames hvalues
  refine .tree ?_
  cases htype : file.tree.part? entry.spec 1 with
  | none => exact (hdecls none).pre fun pkg _ h => ⟨h, knownIfSome_none pkg⟩
  | some t =>
      have ht := hentry.refers_value hvalue (.inl htype)
      exact (((hm.type t).pre fun _ _ h => h.step ht).map fun _ _ _ h => knownIfSome_some h.knows).bind
        (stable_leads entry.spec) hdecls

omit hrole in
include hentry in
theorem function_keeps (hfunction : entry.role = .function) :
    Keeps file owns (·.Leads file entry.spec) (m.function entry) fun _ _ => True := by
  have hrole : entry.role ≠ .type := by simp [hfunction]
  refine .part fun c hc => ?_
  refine ((hm.type c).pre fun _ _ h => h.step (hentry.refers_signature hfunction hc)).bind (stable_leads _)
    fun signature => .get fun q _ _ => ?_
  cases q.objects.get? entry.name with
  | none => exact .pure fun _ _ _ => trivial
  | some obj =>
      refine .check rfl fun _ => update_keeps hrole hentry (fun _ => rfl) ?_
      rintro pkg ⟨⟨-, h⟩, -⟩ obj t ⟨⟩
      exact h.knows

include hentry in
theorem byRole_keeps : Keeps file owns (·.Leads file entry.spec) (m.byRole entry) fun _ _ => True := by
  unfold byRole
  split
  · next h => exact absurd h hrole
  · next h => exact valueSpec_keeps hm hentry (.inl h)
  · next h => exact valueSpec_keeps hm hentry (.inr h)
  · next h => exact function_keeps hm hentry h
  · exact .pure fun _ _ _ => trivial
  · exact .pure fun _ _ _ => trivial

end Values

/-! ### Whole declarations -/

omit hm in
/-- An action that ends without a fault keeps a package tame, if what it leaves is tame. -/
theorem leaves_of_ends {α : Type} {self : Option Entry} {pkg : Package} {Q : α → Package → Prop}
    {result : Except Failure α × Package} (hends : Ends file self (fun _ => False) pkg Q result)
    (htame : ∀ x, result.1 = .ok x → result.2.Tame file owns) (hclean : result.2.Clean) :
    Leaves file owns pkg Q result := by
  rcases result with ⟨(d | fault) | x, pkg'⟩
  · exact hends.2.elim
  · exact hclean
  · obtain ⟨⟨es, hwork⟩, hq⟩ := hends
    exact ⟨htame x rfl, .of_work hwork, hq⟩

variable {pkg : Package} (hentry : entry.Fits file) (htame : pkg.Tame file owns)
  (hpending : pkg.progress? entry.spec = some .pending) (hlead : pkg.Leads file entry.spec)
include hentry htame hpending hlead

omit hm hentry htame hlead in
/-- A declaration that was begun is under way until it is ended. -/
theorem resolving_of_begun {pkg₁ : Package} (honward : Onward (pkg.setProgress entry.spec .resolving) pkg₁) :
    pkg₁.progress? entry.spec = some .resolving := by
  have hself : (pkg.setProgress entry.spec .resolving).progress? entry.spec = some .resolving :=
    Package.progress?_setProgress_self (by rw [hpending]; rfl)
  rw [honward.kept _ (by rw [hself]; simp), hself]

/-- The declaration of constants, variables or a function. -/
theorem resolve_value_tame (hrole : entry.role ≠ .type) :
    (∀ x, (m.resolve entry file pkg).1 = .ok x → (m.resolve entry file pkg).2.Tame file owns) ∧
      (m.resolve entry file pkg).2.Clean := by
  have hleaves := byRole_keeps hm hentry hrole _ (htame.begin hpending) (hlead.begin_value htame.forest hentry hrole)
  rw [resolve_eq m hpending]
  rcases hrun : m.byRole entry file (pkg.setProgress entry.spec .resolving) with ⟨(d | fault) | _, pkg₁⟩
  · rw [hrun] at hleaves
    obtain ⟨htame₁, honward, hd⟩ := hleaves
    have hresolving := resolving_of_begun hpending honward
    dsimp only
    rw [if_neg hrole]
    show (∀ x, (ResolveM.record d file (pkg₁.setProgress entry.spec .done)).1 = .ok x → _) ∧ _
    rw [record_eq]
    have hended : ((pkg₁.setProgress entry.spec .done).recorded (some d)).Tame file owns := by
      refine (htame₁.ended hentry hrole hresolving).recorded ?_
      rintro d' ⟨⟩
      exact hd
    exact ⟨fun _ _ => hended, hended.clean⟩
  · rw [hrun] at hleaves
    exact ⟨fun _ h => (by cases h), hleaves⟩
  · rw [hrun] at hleaves
    obtain ⟨htame₁, honward, -⟩ := hleaves
    have hended := htame₁.ended hentry hrole (resolving_of_begun hpending honward)
    exact ⟨fun _ _ => hended, hended.clean⟩

omit hm hentry htame hpending in
/-- The type that a declaration is declared with stands for something, if it has to. -/
theorem meaning_bound (hlayered : file.Layered) {y : NodeId} (hy : file.definition? entry.spec = some y)
    {pkg₁ : Package} (htame₁ : pkg₁.Tame file owns) (honward : Onward (pkg.setProgress entry.spec .resolving) pkg₁)
    {t : TypeId} (hmeant : Meant file owns y t pkg₁) : (pkg₁.types.underlying? t).isSome := by
  by_cases hname : file.IsName y
  · cases hdeclared : (pkg₁.types.shape t).isDeclared with
    | false =>
        rw [underlying?_of_built hdeclared]
        rfl
    | true =>
        obtain ⟨u, hu, -⟩ | ⟨spec, howns, hbegun, hrefers⟩ := hmeant.traced t (.self hdeclared)
        · rw [hu]
          rfl
        · refine htame₁.bound_of_needs hlayered (.inl ⟨hy, fun _ => hname⟩) howns hbegun hrefers fun hresolving => ?_
          -- What is under way is the declaration itself, or has led to it.
          by_cases heq : spec = entry.spec
          · rw [heq]
          · have hold := honward.ended spec hresolving
            rw [Package.progress?_setProgress_of_ne heq] at hold
            exact (htame₁.held spec t howns).back hlead hold
  · exact hmeant.bound hname

/-- The declaration of a type or an alias. -/
theorem resolve_type_tame (hlayered : file.Layered) (hrole : entry.role = .type) :
    (∀ x, (m.resolve entry file pkg).1 = .ok x → (m.resolve entry file pkg).2.Tame file owns) ∧
      (m.resolve entry file pkg).2.Clean := by
  have hmeaning : Keeps file owns (fun pkg => ∀ y, file.tree.part? entry.spec 1 = some y → pkg.Leads file y)
      (ResolveM.part entry.spec 1 >>= m.type) fun t pkg =>
        ∃ y, file.tree.part? entry.spec 1 = some y ∧ Meant file owns y t pkg :=
    .part fun y hy => ((hm.type y).pre fun _ _ h => h y hy).mono fun t pkg _ h => ⟨y, hy, h⟩
  have hleaves := hmeaning _ (htame.begin hpending) fun y hy => hlead.begin_type (hentry.definition? hrole hy)
  have hbyRole : m.byRole entry = (ResolveM.part entry.spec 1 >>= m.type) >>= takeMeaning entry := by
    rw [byRole, hrole, bind_assoc]
    rfl
  rw [resolve_eq m hpending, hbyRole, ResolveM.bind_run]
  rcases hrun : (ResolveM.part entry.spec 1 >>= m.type) file (pkg.setProgress entry.spec .resolving) with
    ⟨(d | fault) | t, pkg₁⟩
  · rw [hrun] at hleaves
    obtain ⟨htame₁, honward, hd⟩ := hleaves
    have hresolving := resolving_of_begun hpending honward
    obtain ⟨pkg₂, hpoison, hmeans⟩ := poison_ends htame₁.toOrderly ⟨hentry, hrole, .inr hresolving⟩
    dsimp only
    rw [if_pos hrole, ResolveM.run_bind hpoison, record_eq]
    have hended : ((pkg₂.setProgress entry.spec .done).recorded (some d)).Tame file owns := by
      refine (htame₁.means hentry hrole hresolving hmeans (htame₁.meant_invalid _).traced).recorded ?_
      rintro d' ⟨⟩
      exact hd
    exact ⟨fun _ _ => hended, hended.clean⟩
  · rw [hrun] at hleaves
    exact ⟨fun _ h => (by cases h), hleaves⟩
  · rw [hrun] at hleaves
    obtain ⟨htame₁, honward, y, hy, hmeant⟩ := hleaves
    have hresolving := resolving_of_begun hpending honward
    have hy := hentry.definition? hrole hy
    have hbound := meaning_bound hlead hlayered hy htame₁ honward hmeant
    obtain ⟨pkg₂, htake, hmeans⟩ | ⟨d, -, -, -, -, hnone⟩ :=
      takeMeaning_ends htame₁.toOrderly ⟨hentry, hrole, .inr hresolving⟩ hmeant.knows
    · dsimp only
      rw [htake]
      have hended := htame₁.means hentry hrole hresolving hmeans
        (hmeant.traced.refers (.single (ParsedFile.refers_of_definition hy)))
      exact ⟨fun _ _ => hended, hended.clean⟩
    · rw [hnone] at hbound
      cases hbound

omit htame hpending hlead in
/-- Resolving a declaration finds no type to be recursive. -/
theorem resolve_keeps (hlayered : file.Layered) (hlawful : m.Lawful file) :
    Keeps file owns (·.Leads file entry.spec) (m.resolve entry) fun _ pkg =>
      pkg.progress? entry.spec ≠ some .pending := by
  intro pkg htame hlead
  by_cases hpending : pkg.progress? entry.spec = some .pending
  · have hends : Ends file none (fun _ => False) pkg (fun _ pkg => pkg.progress? entry.spec ≠ some .pending)
        (m.resolve entry file pkg) := resolve_ends hlawful hentry htame.toOrderly
    by_cases hrole : entry.role = .type
    · obtain ⟨hdone, hclean⟩ := resolve_type_tame hm hentry htame hpending hlead hlayered hrole
      exact leaves_of_ends hends hdone hclean
    · obtain ⟨hdone, hclean⟩ := resolve_value_tame hm hentry htame hpending hlead hrole
      exact leaves_of_ends hends hdone hclean
  · rw [Meanings.resolve, ResolveM.run_bind (ResolveM.get_run file pkg), if_pos hpending]
    exact ⟨htame, .refl pkg, hpending⟩

end Meanings

/-! ### Unfolding -/

/-- Meanings that give up at every question. -/
def Meanings.silent : Meanings where
  type _ := throw (.construction (.tooManyMethods 0))
  constant _ := throw (.construction (.tooManyMethods 0))
  value _ := throw (.construction (.tooManyMethods 0))
  declaration _ := throw (.construction (.tooManyMethods 0))

/-- The recursion of resolution, unfolded any number of times. -/
theorem careful_unfold (hlayered : file.Layered) (n : Nat) :
    (Meanings.silent.unfold n).Lawful file ∧ (Meanings.silent.unfold n).Careful file owns := by
  induction n with
  | zero =>
      refine ⟨⟨?_, ?_, ?_, ?_⟩, ⟨?_, ?_, ?_, ?_⟩⟩
      · exact fun _ pkg _ _ => ⟨⟨0, rfl⟩, rfl, .refl⟩
      · exact fun _ pkg _ _ => ⟨⟨0, rfl⟩, rfl, .refl⟩
      · exact fun _ pkg _ _ => ⟨⟨0, rfl⟩, rfl, .refl⟩
      · exact fun _ pkg _ _ => ⟨⟨0, rfl⟩, rfl, .refl⟩
      · exact fun _ pkg htame _ => htame.clean
      · exact fun _ pkg htame _ => htame.clean
      · exact fun _ pkg htame _ => htame.clean
      · exact fun _ _ pkg htame _ => htame.clean
  | succ n ih =>
      obtain ⟨hlawful, hcareful⟩ := ih
      refine ⟨⟨?_, ?_, ?_, ?_⟩, ⟨?_, ?_, ?_, ?_⟩⟩
      · exact fun hid => Meanings.typeExpr_does hlawful hid
      · exact fun hid => Meanings.constantExpr_does hlawful hid
      · exact fun hid => Meanings.valueExpr_does hlawful hid
      · exact fun hentry => Meanings.resolve_does hlawful hentry
      · exact Meanings.typeExpr_keeps hcareful hlayered
      · exact Meanings.constantExpr_keeps hcareful hlayered
      · exact Meanings.valueExpr_keeps hcareful hlayered
      · exact fun entry hentry => Meanings.resolve_keeps hcareful hentry hlayered hlawful

/-! ### Methods -/

/-- When no declaration is left, none becomes pending or is taken up again. -/
theorem stable_ended : Stable file owns Package.Ended := by
  intro pkg pkg' _ honward hended spec hopen
  rw [Package.Open, honward.kept spec fun hpending => hended spec (.inl hpending)] at hopen
  exact hended spec hopen

theorem Package.Ended.leads {pkg : Package} (h : pkg.Ended) (x : NodeId) : pkg.Leads file x :=
  fun entry _ _ hresolving => absurd (.inr hresolving) (h entry.spec)

namespace Meanings

theorem receiverBase_keeps (recv : NodeId) : Keeps file owns P (receiverBase recv) fun _ _ => True := by
  have hname (base : NodeId) :
      Keeps file owns P
        (do
          if file.tree.op base ≠ .lit .ident then
            ResolveM.fail base (.invalidReceiver (file.tree.render base))
          return base)
        fun _ _ => True :=
    .check rfl fun _ => .pure fun _ _ _ => trivial
  refine .tree ?_
  split
  · exact .part fun typ _ => .ite (fun _ => .part fun base _ => hname base) fun _ => hname typ
  · exact .fail rfl
  · exact .fail rfl

theorem receiverType_keeps (base : NodeId) (name : String) :
    Keeps file owns P (receiverType base name) fun t pkg => pkg.types.Knows t := by
  refine .get fun q hq _ => ?_
  cases q.declared? name with
  | none => exact .ite (fun _ => .fail rfl) fun _ => .fail rfl
  | some entry =>
      dsimp only
      split
      · next t ht =>
          refine .pure ?_
          rintro pkg htame ⟨-, rfl⟩
          have hdenoted := (Option.filter_eq_some_iff.1 ht).1
          split at hdenoted
          · obtain ⟨obj, hobj, htyp⟩ := Option.bind_eq_some_iff.1 hdenoted
            exact htame.known _ obj t hobj htyp
          · cases hdenoted
      · exact .fail rfl

variable {decl name : NodeId} {t signature : TypeId}

/-- A function is added to its receiver, or refused without a type being recursive. -/
theorem attach_keeps {f : Method} {obj : Object} (hdecl : decl ∈ file.decls)
    (hmethod : Package.isMethod file.tree decl = true) (hname : file.tree.part? decl 1 = some name)
    (hobj : obj.typ = some f.typ) :
    Keeps file owns (fun pkg => pkg.Ended ∧ pkg.types.Knows t ∧ pkg.types.Knows f.typ)
      (do
        ResolveM.buildAt name (TypeTable.addMethod t f)
        modify fun pkg => { pkg with objects := pkg.objects.insert name obj }) fun _ _ => True := by
  rintro pkg htame ⟨hended, ht, hf⟩
  have hreaches : Reaches pkg.types (TypeTable.addMethod t f pkg.types).2 := by
    refine Reaches.after .refl (.method t f) ?_ rfl
    simpa [Operation.handles] using ⟨ht, hf⟩
  rw [ResolveM.bind_run, ResolveM.buildAt, ResolveM.bind_run, Does.onTypes_eq]
  dsimp only
  cases houtcome : (TypeTable.addMethod t f pkg.types).1 with
  | ok x =>
      refine ⟨htame.method hdecl hmethod hname hended.not_awaits hreaches (htame.tidy.addMethod f)
        (fun u _ => underlying?_addMethod t f pkg.types u) fun u hu => ?_,
        .of_tasks_eq ⟨rfl, rfl, rfl, rfl, hreaches⟩ rfl, trivial⟩
      cases hobj.symm.trans hu
      exact (hreaches.grows htame.regular.toSound).knows hf
  | error fault =>
      have hsame : (TypeTable.addMethod t f pkg.types).2 = pkg.types := by
        obtain ⟨outcome, hrun⟩ | ⟨_, _, _, _, -, hrun⟩ := addMethod_cases t f pkg.types
        · rw [hrun]
        · rw [hrun] at houtcome
          cases houtcome
      rw [hsame]
      cases fault with
      | arrayTooLarge | duplicateMethod | notAnInterface | incompleteEmbedded => exact ⟨htame, .refl pkg, rfl⟩
      | _ => exact htame.clean

theorem addMethod_keeps (hdecl : decl ∈ file.decls) (hmethod : Package.isMethod file.tree decl = true)
    (hname : file.tree.part? decl 1 = some name) (receiver : String) :
    Keeps file owns (fun pkg => pkg.Ended ∧ pkg.types.Knows t ∧ pkg.types.Knows signature)
      (addMethod decl name receiver t signature) fun _ _ => True := by
  refine .tree (.get fun q _ _ => .check rfl fun _ => ?_)
  rintro pkg htame ⟨hpkg, -⟩
  have honward : Onward pkg { pkg with methods := (receiver, file.tree.literal name) :: pkg.methods } :=
    .of_tasks_eq ⟨rfl, rfl, rfl, rfl, .refl⟩ rfl
  refine Leaves.after honward ?_
  dsimp only
  rw [ResolveM.run_bind (modify_run _ file pkg), ResolveM.run_bind (ResolveM.get_run file _)]
  exact attach_keeps (f := { name := file.tree.literal name, pkgPath := _, typ := signature }) hdecl hmethod hname rfl _
    (htame.note _) ⟨stable_ended htame honward hpkg.1, hpkg.2⟩

/-- A method declaration. -/
theorem method_keeps {m : Meanings} (hm : m.Careful file owns) (hdecl : decl ∈ file.decls)
    (hmethod : Package.isMethod file.tree decl = true) :
    Keeps file owns Package.Ended (m.method decl) fun _ _ => True := by
  refine .part fun recv _ => .part fun name hname => .part fun sig _ => .tree (.check rfl fun _ => ?_)
  refine (receiverBase_keeps recv).bind stable_ended fun base => ?_
  refine Keeps.pre (P := Package.Ended) ?_ fun _ _ h => h.1
  refine (receiverType_keeps base _).bind stable_ended fun t => .types fun tt => ?_
  have hstable : Stable file owns fun pkg => pkg.Ended ∧ pkg.types.Knows t := stable_ended.and (stable_knows t)
  split
  · exact .pure fun _ _ _ => trivial
  · exact .fail rfl
  · exact .fail rfl
  · refine Keeps.pre (P := fun pkg => pkg.Ended ∧ pkg.types.Knows t) ?_ fun _ _ h => h.1
    refine ((hm.type sig).pre fun _ _ h => h.1.leads sig).bind hstable fun signature => .types fun tt => ?_
    refine .ite (fun _ => ?_) fun _ => .pure fun _ _ _ => trivial
    refine (addMethod_keeps hdecl hmethod hname _).pre ?_
    rintro pkg - ⟨⟨⟨hended, ht⟩, hmeant⟩, -⟩
    exact ⟨hended, ht, hmeant.knows⟩

end Meanings

end GoSource
