import GoSource.Proofs.Package.Containment
import GoSource.Proofs.Package.Passes
import GoSource.Proofs.Typing.Tidy

/-!
# Packages in which nothing is recursive

While the declarations of a layered file are resolved, whatever is under way has led to the node that is looked at, by
references.  A type that is needed in full is therefore never under way.

* **`Package.Traced`**: the declared types that a type mentions come from declarations that a node refers to.
* **`Package.Leads`**: the declarations that are under way refer to a node.
* **`Package.Tame`**: the types are tidy, what types and aliases stand for is traced to their declarations, and no type
  was found to be recursive.  One lemma a step says that it keeps a package tame: `Tame.build`, `Tame.give`,
  `Tame.begin`, `Tame.means`, `Tame.ended`, `Tame.method`, `Tame.note` and `Tame.recorded`.
* **`Tame.bound_of_needs`**, **`Tame.ready`**: a type that is needed stands for something, and can be completed.
-/

namespace GoSource

open TypeTable

/-- Whether a fault says that a type is recursive. -/
def SemanticFault.isRecursive : SemanticFault → Bool
  | .recursiveType _ => true
  | _ => false

/-- A declared type that stands for something in which no declared type is mentioned. -/
def TypeTable.Closed (tt : TypeTable) (c : TypeId) : Prop :=
  ∃ u, tt.underlying? c = some u ∧ ∀ d, ¬ tt.Mentions u d

theorem TypeTable.Closed.extends {tt tt' : TypeTable} {c : TypeId} (h : tt.Closed c) (hsound : tt.Sound)
    (hc : tt.Knows c) (hext : Extends tt tt') : tt'.Closed c := by
  obtain ⟨u, hu, hnone⟩ := h
  have hknown := (hsound.underlying? hc hu).1
  exact ⟨u, hext.underlying?_eq hc hu, fun d hd => hnone d (hext.mentions hsound hknown hd)⟩

theorem TypeTable.Mentions.knows {tt : TypeTable} {t c : TypeId} (h : tt.Mentions t c) : tt.Knows c := by
  refine knows_of_shape_ne fun hs => ?_
  have hdeclared := h.declared
  rw [hs] at hdeclared
  cases hdeclared

variable {file : ParsedFile} {owns : NodeId → TypeId → Prop} {pkg pkg' : Package} {entry : Entry} {obj obj' : Object}
  {spec x y : NodeId} {t u c : TypeId}

theorem Steady.isSome_progress? (h : Steady pkg pkg') (hspec : (pkg.progress? spec).isSome) :
    (pkg'.progress? spec).isSome := by
  have hmem {pkg : Package} : (pkg.progress? spec).isSome ↔ ∃ entry ∈ pkg.tasks.map Task.entry, entry.spec = spec := by
    simp [Package.progress?]
  rw [hmem, h.entries_eq, ← hmem]
  exact hspec

/-! ### Traces -/

namespace Package

/-- A declaration has been begun. -/
def Begun (pkg : Package) (spec : NodeId) : Prop :=
  pkg.progress? spec = some .resolving ∨ pkg.progress? spec = some .done

/-- The node `x` refers to the declarations of all declared types that `t` mentions, and these have been begun.  Which
declaration owns which type is given. -/
def Traced (file : ParsedFile) (owns : NodeId → TypeId → Prop) (pkg : Package) (x : NodeId) (t : TypeId) : Prop :=
  ∀ c, pkg.types.Mentions t c →
    pkg.types.Closed c ∨ ∃ spec, owns spec c ∧ pkg.Begun spec ∧ Relation.ReflTransGen file.Refers x spec

/-- All type declarations that are under way refer to the node `x`, by what they are declared with. -/
def Leads (file : ParsedFile) (pkg : Package) (x : NodeId) : Prop :=
  ∀ entry : Entry, entry.Fits file → entry.role = .type → pkg.progress? entry.spec = some .resolving →
    ∃ y, file.definition? entry.spec = some y ∧ Relation.ReflTransGen file.Refers y x

/-- No fault says that a type is recursive. -/
def Clean (pkg : Package) : Prop :=
  ∀ d ∈ pkg.faults, d.cause.isRecursive = false

/-- The predeclared types mention closed types only. -/
def Enclosed (pkg : Package) : Prop :=
  ∀ obj ∈ pkg.outer, obj.role = .type →
    ∃ t, obj.typ = some t ∧ ∀ c, pkg.types.Mentions t c → pkg.types.Closed c

theorem Enclosed.later (h : pkg.Enclosed) (hready : pkg.Ready) (houter : pkg'.outer = pkg.outer)
    (hext : Extends pkg.types pkg'.types) : pkg'.Enclosed := by
  intro obj hobj hrole
  rw [houter] at hobj
  obtain ⟨t, ht, hclosed⟩ := h obj hobj hrole
  refine ⟨t, ht, fun c hc => ?_⟩
  have hold := hext.mentions hready.regular.toSound (hready.predeclared obj hobj t ht) hc
  exact (hclosed c hold).extends hready.regular.toSound hold.knows hext

theorem Traced.later (h : pkg.Traced file owns x t) (hsound : pkg.types.Sound) (ht : pkg.types.Knows t)
    (hext : Extends pkg.types pkg'.types) (hbegun : ∀ spec, pkg.Begun spec → pkg'.Begun spec) :
    pkg'.Traced file owns x t := by
  intro c hc
  have hold := hext.mentions hsound ht hc
  obtain hclosed | ⟨spec, howns, hspec, hrefers⟩ := h c hold
  · exact .inl (hclosed.extends hsound hold.knows hext)
  · exact .inr ⟨spec, howns, hbegun spec hspec, hrefers⟩

theorem Traced.refers (h : pkg.Traced file owns x t) (hx : Relation.ReflTransGen file.Refers y x) :
    pkg.Traced file owns y t := by
  intro c hc
  obtain hclosed | ⟨spec, howns, hspec, hrefers⟩ := h c hc
  · exact .inl hclosed
  · exact .inr ⟨spec, howns, hspec, hx.trans hrefers⟩

theorem Traced.of_parts (hbuilt : (pkg.types.shape t).isDeclared = false)
    (h : ∀ part ∈ (pkg.types.shape t).components, pkg.Traced file owns x part) : pkg.Traced file owns x t := by
  intro c hc
  obtain ⟨part, hpart, hc'⟩ := hc.of_built hbuilt
  exact h part hpart c hc'

theorem Leads.step (h : pkg.Leads file x) (hxy : file.Refers x y) : pkg.Leads file y := by
  intro entry hentry hrole hresolving
  obtain ⟨d, hd, hrefers⟩ := h entry hentry hrole hresolving
  exact ⟨d, hd, hrefers.tail hxy⟩

/-! ### Tame packages -/

/-- What is known about the entity of a type declaration: a declared type is owned by the declaration, and an alias has
no type until it is done. -/
structure Accounted (file : ParsedFile) (owns : NodeId → TypeId → Prop) (pkg : Package) (entry : Entry)
    (obj : Object) : Prop where
  scheduled : (pkg.progress? entry.spec).isSome
  untyped : obj.typ = none → file.tree.op entry.spec ≠ .kw .type ∧ pkg.progress? entry.spec ≠ some .done
  typed : ∀ t, obj.typ = some t →
    owns entry.spec t ∨ pkg.progress? entry.spec = some .done ∧ pkg.Traced file owns entry.spec t

/-- What is known about a type that a declaration owns: it stands for something when the declaration is done, and that
is traced to the declaration. -/
structure Held (file : ParsedFile) (owns : NodeId → TypeId → Prop) (pkg : Package) (spec : NodeId) (t : TypeId) :
    Prop where
  fits : ∃ entry : Entry, entry.Fits file ∧ entry.role = .type ∧ entry.spec = spec
  op_eq : file.tree.op spec = .kw .type
  declared : (pkg.types.shape t).isDeclared = true
  bound : pkg.progress? spec = some .done → (pkg.types.underlying? t).isSome
  traced : ∀ u, pkg.types.underlying? t = some u → pkg.Traced file owns spec u

/-- A package in which no type was found to be recursive, and none will be as long as the file is layered. -/
structure Tame (file : ParsedFile) (owns : NodeId → TypeId → Prop) (pkg : Package) : Prop
    extends pkg.Orderly file where
  tidy : pkg.types.Tidy
  clean : pkg.Clean
  names : ∀ name, pkg.declared? name = file.entry? name
  enclosed : pkg.Enclosed
  roles : ∀ entry : Entry, entry.Fits file → ∀ obj, pkg.objects.get? entry.name = some obj → obj.role = entry.role
  accounted : ∀ entry : Entry, entry.Fits file → entry.role = .type → ∀ obj, pkg.objects.get? entry.name = some obj →
    pkg.Accounted file owns entry obj
  held : ∀ spec t, owns spec t → pkg.Held file owns spec t
  one_owner : ∀ spec spec' t, owns spec t → owns spec' t → spec = spec'
  one_type : ∀ spec t t', owns spec t → owns spec t' → t = t'

theorem Accounted.later (h : pkg.Accounted file owns entry obj) (horderly : pkg.Orderly file)
    (hobj : pkg.objects.get? entry.name = some obj) (hsteady : Steady pkg pkg') (htyp : obj'.typ = obj.typ)
    (hdone : pkg'.progress? entry.spec = some .done ↔ pkg.progress? entry.spec = some .done)
    (hbegun : ∀ spec, pkg.Begun spec → pkg'.Begun spec) : pkg'.Accounted file owns entry obj' where
  scheduled := hsteady.isSome_progress? h.scheduled
  untyped hnone := (h.untyped (htyp.symm.trans hnone)).imp_right fun hne hnow => hne (hdone.1 hnow)
  typed t ht := by
    have ht := htyp.symm.trans ht
    have hsound := horderly.regular.toSound
    refine (h.typed t ht).imp_right fun ⟨hold, htraced⟩ => ⟨hdone.2 hold, ?_⟩
    exact htraced.later hsound (horderly.known _ obj t hobj ht) (hsteady.reaches.grows hsound).toExtends hbegun

theorem Held.later (h : pkg.Held file owns spec t) (horderly : pkg.Orderly file) (hsteady : Steady pkg pkg')
    (hdone : pkg'.progress? spec = some .done ↔ pkg.progress? spec = some .done)
    (hunderlying : pkg'.types.underlying? t = pkg.types.underlying? t)
    (hbegun : ∀ spec, pkg.Begun spec → pkg'.Begun spec) : pkg'.Held file owns spec t where
  fits := h.fits
  op_eq := h.op_eq
  declared := (hsteady.reaches.grows horderly.regular.toSound).isDeclared h.declared
  bound hspec := by
    rw [hunderlying]
    exact h.bound (hdone.1 hspec)
  traced u hu := by
    have hsound := horderly.regular.toSound
    rw [hunderlying] at hu
    have hknown := (hsound.underlying? (Mentions.knows (.self h.declared)) hu).1
    exact (h.traced u hu).later hsound hknown (hsteady.reaches.grows hsound).toExtends hbegun

/-- What is under way refers to the node that it leads to. -/
theorem Held.back (h : pkg.Held file owns spec t) (hlead : pkg'.Leads file x)
    (hresolving : pkg'.progress? spec = some .resolving) : Relation.ReflTransGen file.Refers spec x := by
  obtain ⟨entry, hentry, hrole, rfl⟩ := h.fits
  obtain ⟨y, hy, hrefers⟩ := hlead entry hentry hrole hresolving
  exact .head (ParsedFile.refers_of_definition hy) hrefers

end Package

/-! ### What a declaration does with its meaning -/

namespace Means

variable {meaning : TypeId} (h : Means entry meaning pkg pkg')
include h

theorem knows : pkg.types.Knows meaning := by
  cases h with
  | bound _ _ hknown => exact hknown
  | taken _ _ hknown => exact hknown

/-- A declared type keeps its entity, and an alias takes its type. -/
theorem object : ∃ obj, pkg.objects.get? entry.name = some obj ∧
    (obj.typ.isSome ∧ pkg'.objects.get? entry.name = some obj ∨
      obj.typ = none ∧ pkg'.objects.get? entry.name = some { obj with typ := some meaning }) := by
  cases h with
  | @bound obj t types hobj ht => exact ⟨obj, hobj, .inl ⟨by rw [ht]; rfl, hobj⟩⟩
  | @taken obj hobj ht =>
      refine ⟨obj, hobj, .inr ⟨ht, ?_⟩⟩
      show (pkg.objects.modify _ _).get? _ = _
      rw [NodeMap.get?_modify_self, hobj]
      rfl

/-- Every entity was there before, in the same role. -/
theorem role_before {id : NodeId} {obj' : Object} (hobj' : pkg'.objects.get? id = some obj') :
    ∃ obj, pkg.objects.get? id = some obj ∧ obj'.role = obj.role := by
  by_cases heq : id = entry.name
  · subst heq
    obtain ⟨obj, hobj, ⟨-, hnow⟩ | ⟨-, hnow⟩⟩ := h.object
    · cases hnow.symm.trans hobj'
      exact ⟨_, hobj, rfl⟩
    · cases hnow.symm.trans hobj'
      exact ⟨_, hobj, rfl⟩
  · exact ⟨obj', (h.get?_eq heq).symm.trans hobj', rfl⟩

theorem tidy (htidy : pkg.types.Tidy) : pkg'.types.Tidy := by
  cases h with
  | @bound obj t types _ _ hknown hbind =>
      have hset := htidy.setUnderlying (t := t) hknown
      rw [hbind] at hset
      exact hset
  | taken => exact htidy

/-- The type of the declaration, if it has one of its own, stands for what its meaning stands for. -/
theorem underlying? (hobj : pkg.objects.get? entry.name = some obj) (t : TypeId) :
    (obj.typ = some t ∧ ∃ u, pkg.types.underlying? meaning = some u ∧ pkg'.types.underlying? t = some u) ∨
      obj.typ ≠ some t ∧ pkg'.types.underlying? t = pkg.types.underlying? t := by
  cases h with
  | @bound obj' t' types hobj' ht' _ hbind =>
      cases hobj.symm.trans hobj'
      obtain ⟨fault, hrun⟩ | ⟨pkgPath, name, ms, u, hs, hu, hrun⟩ := setUnderlying_cases t' meaning pkg.types
      · cases hrun.symm.trans hbind
      · cases hrun.symm.trans hbind
        have hknown : pkg.types.Knows t' := knows_of_shape_ne (by rw [hs]; simp)
        by_cases heq : t = t'
        · subst heq
          refine .inl ⟨ht', u, hu, ?_⟩
          rw [TypeTable.underlying?, shape_update, if_pos ⟨rfl, hknown⟩]
        · refine .inr ⟨fun ht => heq (Option.some.inj (ht.symm.trans ht')), ?_⟩
          rw [TypeTable.underlying?, shape_update, if_neg fun hand => heq hand.1]
          rfl
  | @taken obj' hobj' ht' =>
      cases hobj.symm.trans hobj'
      exact .inr ⟨by simp [ht'], rfl⟩

end Means

namespace Package

namespace Tame

/-- A package is tame if what was known of its declarations is known of them still. -/
theorem carry (h : pkg.Tame file owns) (horderly : pkg'.Orderly file) (hsteady : Steady pkg pkg')
    (htidy : pkg'.types.Tidy) (hclean : pkg'.Clean)
    (hroles : ∀ entry : Entry, entry.Fits file → ∀ obj', pkg'.objects.get? entry.name = some obj' →
      ∃ obj, pkg.objects.get? entry.name = some obj ∧ obj'.role = obj.role)
    (haccounted : ∀ entry : Entry, entry.Fits file → entry.role = .type → ∀ obj',
      pkg'.objects.get? entry.name = some obj' → pkg'.Accounted file owns entry obj')
    (hheld : ∀ spec t, owns spec t → pkg'.Held file owns spec t) : pkg'.Tame file owns := by
  have hgrows := hsteady.reaches.grows h.regular.toSound
  refine ⟨horderly, htidy, hclean, ?_, ?_, ?_, haccounted, hheld, h.one_owner, h.one_type⟩
  · intro name
    rw [← h.names name, declared?, hsteady.scope_eq]
    rfl
  · exact h.enclosed.later h.toOrderly.ready hsteady.outer_eq hgrows.toExtends
  · intro entry hentry obj' hobj'
    obtain ⟨obj, hobj, hrole⟩ := hroles entry hentry obj' hobj'
    rw [hrole]
    exact h.roles entry hentry obj hobj

/-- A package stays tame if declarations are neither ended nor forgotten, and types stand for what they stood for. -/
theorem keep (h : pkg.Tame file owns) (horderly : pkg'.Orderly file) (hsteady : Steady pkg pkg')
    (htidy : pkg'.types.Tidy) (hclean : pkg'.Clean)
    (hdone : ∀ spec, pkg'.progress? spec = some .done ↔ pkg.progress? spec = some .done)
    (hresolving : ∀ spec, pkg.progress? spec = some .resolving → pkg'.progress? spec = some .resolving)
    (hobjects : ∀ entry : Entry, entry.Fits file → ∀ obj', pkg'.objects.get? entry.name = some obj' →
      ∃ obj, pkg.objects.get? entry.name = some obj ∧ obj'.role = obj.role ∧ (entry.role = .type → obj'.typ = obj.typ))
    (hunderlying : ∀ t, pkg.types.Knows t → pkg'.types.underlying? t = pkg.types.underlying? t) :
    pkg'.Tame file owns := by
  have hbegun (spec : NodeId) (hspec : pkg.Begun spec) : pkg'.Begun spec :=
    hspec.imp (hresolving spec) (hdone spec).2
  refine h.carry horderly hsteady htidy hclean (fun entry hentry obj' hobj' => ?_) ?_ ?_
  · obtain ⟨obj, hobj, hrole, -⟩ := hobjects entry hentry obj' hobj'
    exact ⟨obj, hobj, hrole⟩
  · intro entry hentry hrole obj' hobj'
    obtain ⟨obj, hobj, -, htyp⟩ := hobjects entry hentry obj' hobj'
    exact (h.accounted entry hentry hrole obj hobj).later h.toOrderly hobj hsteady (htyp hrole) (hdone _) hbegun
  · intro spec t howns
    have hheld := h.held spec t howns
    exact hheld.later h.toOrderly hsteady (hdone _) (hunderlying t (Mentions.knows (.self hheld.declared))) hbegun

/-- Building types. -/
theorem build (h : pkg.Tame file owns) {types : TypeTable} (hbuilds : pkg.types.Builds types) (htidy : types.Tidy) :
    ({ pkg with types } : Package).Tame file owns := by
  refine h.keep (h.toOrderly.build hbuilds) ⟨rfl, rfl, rfl, rfl, hbuilds.reaches⟩ htidy h.clean (fun _ => .rfl)
    (fun _ => id) (fun entry _ obj hobj => ⟨obj, hobj, rfl, fun _ => rfl⟩) fun t ht => ?_
  show types.underlying? t = _
  rw [underlying?, underlying?, hbuilds.shape_eq t ht]

/-- Giving a type to a constant, a variable or a function. -/
theorem give (h : pkg.Tame file owns) {name : NodeId} {f : Object → Object} (hrole : entry.role ≠ .type)
    (hname : ({ entry with name } : Entry).Fits file) (hkeeps : ∀ obj, (f obj).role = obj.role)
    (hf : ∀ obj t, (f obj).typ = some t → pkg.types.Knows t) :
    ({ pkg with objects := pkg.objects.modify name f } : Package).Tame file owns := by
  refine h.keep (h.toOrderly.give hrole hname hf) ⟨rfl, rfl, rfl, rfl, .refl⟩ h.tidy h.clean (fun _ => .rfl)
    (fun _ => id) (fun e he obj' hobj' => ?_) fun _ _ => rfl
  have hobj' : (pkg.objects.modify name f).get? e.name = some obj' := hobj'
  by_cases hid : e.name = name
  · rw [hid, NodeMap.get?_modify_self, Option.map_eq_some_iff] at hobj'
    obtain ⟨obj, hobj, rfl⟩ := hobj'
    refine ⟨obj, by rw [hid]; exact hobj, hkeeps obj, fun htype => absurd ?_ hrole⟩
    exact (congrArg Entry.role (he.eq_of_name h.forest hname hid)).symm.trans htype
  · rw [NodeMap.get?_modify_of_ne _ _ hid] at hobj'
    exact ⟨obj', hobj', rfl, fun _ => rfl⟩

/-- Beginning a declaration. -/
theorem begin (h : pkg.Tame file owns) (hpending : pkg.progress? spec = some .pending) :
    (pkg.setProgress spec .resolving).Tame file owns := by
  have hself : (pkg.setProgress spec .resolving).progress? spec = some .resolving :=
    progress?_setProgress_self (by rw [hpending]; rfl)
  refine h.keep (h.toOrderly.begin hpending) (.setProgress _ _ _) h.tidy h.clean (fun spec' => ?_)
    (fun spec' hspec' => ?_) (fun entry _ obj hobj => ⟨obj, hobj, rfl, fun _ => rfl⟩) fun _ _ => rfl
  · by_cases heq : spec' = spec
    · rw [heq, hself, hpending]
      simp
    · rw [progress?_setProgress_of_ne heq]
  · by_cases heq : spec' = spec
    · rw [heq, hself]
    · rw [progress?_setProgress_of_ne heq]
      exact hspec'

/-- Adding methods, when no type is awaited. -/
theorem method (h : pkg.Tame file owns) {types : TypeTable} {decl name : NodeId} {obj : Object}
    (hdecl : decl ∈ file.decls) (hmethod : isMethod file.tree decl = true) (hname : file.tree.part? decl 1 = some name)
    (hended : ∀ entry, ¬ pkg.Awaits file entry) (hreaches : Reaches pkg.types types) (htidy : types.Tidy)
    (hunderlying : ∀ t, pkg.types.Knows t → types.underlying? t = pkg.types.underlying? t)
    (hknown : ∀ t, obj.typ = some t → types.Knows t) :
    ({ pkg with types, objects := pkg.objects.insert name obj } : Package).Tame file owns := by
  refine h.keep (h.toOrderly.method hended hreaches hknown) ⟨rfl, rfl, rfl, rfl, hreaches⟩ htidy h.clean
    (fun _ => .rfl) (fun _ => id) (fun entry hentry obj' hobj' => ?_) hunderlying
  have hobj' : (pkg.objects.insert name obj).get? entry.name = some obj' := hobj'
  rw [NodeMap.get?_insert_of_ne _ _ (hentry.name_ne h.forest hdecl hmethod hname)] at hobj'
  exact ⟨obj', hobj', rfl, fun _ => rfl⟩

theorem note (h : pkg.Tame file owns) (methods : List (String × String)) :
    ({ pkg with methods } : Package).Tame file owns :=
  h.keep (h.toOrderly.note methods) ⟨rfl, rfl, rfl, rfl, .refl⟩ h.tidy h.clean (fun _ => .rfl) (fun _ => id)
    (fun _ _ obj hobj => ⟨obj, hobj, rfl, fun _ => rfl⟩) fun _ _ => rfl

theorem recorded (h : pkg.Tame file owns) {fault : Option (Diagnostic SemanticFault)}
    (hfault : ∀ d, fault = some d → d.cause.isRecursive = false) : (pkg.recorded fault).Tame file owns := by
  refine h.keep (h.toOrderly.recorded fault) ⟨rfl, rfl, rfl, rfl, .refl⟩ h.tidy (fun d hd => ?_) (fun _ => .rfl)
    (fun _ => id) (fun _ _ obj hobj => ⟨obj, hobj, rfl, fun _ => rfl⟩) fun _ _ => rfl
  obtain hd | hd := Array.mem_append.1 hd
  · exact h.clean d hd
  · exact hfault d (by simpa using hd)

/-- What a type stands for is traced where the type is. -/
theorem traced_underlying (h : pkg.Tame file owns) (ht : pkg.Traced file owns x t)
    (hu : pkg.types.underlying? t = some u) : pkg.Traced file owns x u := by
  cases hdeclared : (pkg.types.shape t).isDeclared with
  | false =>
      cases (underlying?_of_built hdeclared).symm.trans hu
      exact ht
  | true =>
      obtain ⟨v, hv, hnone⟩ | ⟨spec, howns, -, hrefers⟩ := ht t (.self hdeclared)
      · cases hv.symm.trans hu
        exact fun c hc => absurd hc (hnone c)
      · exact ((h.held spec t howns).traced u hu).refers hrefers

section Means

variable {meaning : TypeId} (h : pkg.Tame file owns) (hentry : entry.Fits file) (hrole : entry.role = .type)
  (hresolving : pkg.progress? entry.spec = some .resolving) (hmeans : Means entry meaning pkg pkg')

include hresolving hmeans in
theorem begun_means (hspec : pkg.Begun spec) : (pkg'.setProgress entry.spec .done).Begun spec := by
  by_cases hne : spec = entry.spec
  · rw [hne]
    exact .inr (hmeans.progress?_self hresolving)
  · rw [Begun, hmeans.progress?_of_ne hne]
    exact hspec

include h hentry hrole hresolving in
/-- The type of a declaration that is under way is its own. -/
theorem owns_resolving (hobj : pkg.objects.get? entry.name = some obj) (ht : obj.typ = some t) :
    owns entry.spec t := by
  refine ((h.accounted entry hentry hrole obj hobj).typed t ht).resolve_right fun hdone => ?_
  rw [hresolving] at hdone
  cases hdone.1

include h hentry hrole hresolving hmeans

theorem accounted_means (htraced : pkg.Traced file owns entry.spec meaning)
    (hobj' : pkg'.objects.get? entry.name = some obj') :
    (pkg'.setProgress entry.spec .done).Accounted file owns entry obj' := by
  have hself := hmeans.progress?_self hresolving
  have hsound := h.regular.toSound
  have hext := (hmeans.steady.reaches.grows hsound).toExtends
  obtain ⟨obj, hobj, ⟨hsome, hnow⟩ | ⟨-, hnow⟩⟩ := hmeans.object
  · cases hnow.symm.trans hobj'
    refine ⟨by rw [hself]; rfl, fun hnone => ?_, fun t ht => .inl (h.owns_resolving hentry hrole hresolving hobj ht)⟩
    rw [hnone] at hsome
    cases hsome
  · cases hnow.symm.trans hobj'
    refine ⟨by rw [hself]; rfl, nofun, fun t ht => .inr ⟨hself, ?_⟩⟩
    cases ht
    exact htraced.later hsound hmeans.knows hext fun _ => begun_means hresolving hmeans

theorem held_means (htraced : pkg.Traced file owns entry.spec meaning) (howns : owns spec t) :
    (pkg'.setProgress entry.spec .done).Held file owns spec t := by
  have hsteady : Steady pkg (pkg'.setProgress entry.spec .done) := hmeans.steady.trans (.setProgress _ _ _)
  have hsound := h.regular.toSound
  have hext := (hsteady.reaches.grows hsound).toExtends
  have hbegun (spec : NodeId) (hspec : pkg.Begun spec) : (pkg'.setProgress entry.spec .done).Begun spec :=
    begun_means hresolving hmeans hspec
  obtain ⟨obj, hobj, -⟩ := hmeans.object
  have howned {t : TypeId} (ht : obj.typ = some t) : owns entry.spec t :=
    h.owns_resolving hentry hrole hresolving hobj ht
  have hheld := h.held spec t howns
  obtain ⟨ht, u, hu, hu'⟩ | ⟨ht, hu'⟩ := hmeans.underlying? hobj t
  · -- The type that has got its meaning now.
    obtain rfl := h.one_owner spec entry.spec t howns (howned ht)
    refine ⟨hheld.fits, hheld.op_eq, hext.isDeclared hheld.declared, fun _ => ?_, fun v hv => ?_⟩
    · exact Option.isSome_iff_exists.2 ⟨u, hu'⟩
    · cases hu'.symm.trans hv
      exact (h.traced_underlying htraced hu).later hsound (hsound.underlying? hmeans.knows hu).1 hext hbegun
  · have hspec : spec ≠ entry.spec := by
      rintro rfl
      cases htyp : obj.typ with
      | none => exact ((h.accounted entry hentry hrole obj hobj).untyped htyp).1 hheld.op_eq
      | some t' =>
          refine ht ?_
          rw [htyp, h.one_type entry.spec t t' howns (howned htyp)]
    exact hheld.later h.toOrderly hsteady (by rw [hmeans.progress?_of_ne hspec]) hu' hbegun

/-- Ending the declaration of a type that has got its meaning. -/
theorem means (htraced : pkg.Traced file owns entry.spec meaning) :
    (pkg'.setProgress entry.spec .done).Tame file owns := by
  have hsteady : Steady pkg (pkg'.setProgress entry.spec .done) := hmeans.steady.trans (.setProgress _ _ _)
  refine h.carry (h.toOrderly.means ⟨hentry, hrole, .inr hresolving⟩ hmeans) hsteady (hmeans.tidy h.tidy)
    (fun d hd => h.clean d (hmeans.faults_eq ▸ hd)) (fun _ _ _ hobj' => hmeans.role_before hobj')
    (fun e he hrole' obj' hobj' => ?_) fun _ _ => h.held_means hentry hrole hresolving hmeans htraced
  have hobj' : pkg'.objects.get? e.name = some obj' := hobj'
  by_cases hne : e.name = entry.name
  · obtain rfl := he.eq_of_name h.forest hentry hne
    exact h.accounted_means hentry hrole hresolving hmeans htraced hobj'
  · rw [hmeans.get?_eq hne] at hobj'
    have hspec : e.spec ≠ entry.spec := fun heq =>
      hne (congrArg Entry.name (he.eq_of_spec h.forest hentry hrole' heq))
    exact (h.accounted e he hrole' obj' hobj').later h.toOrderly hobj' hsteady rfl
      (by rw [hmeans.progress?_of_ne hspec]) fun _ => begun_means hresolving hmeans

end Means

/-- Ending a declaration of something else. -/
theorem ended (h : pkg.Tame file owns) (hentry : entry.Fits file) (hrole : entry.role ≠ .type)
    (hresolving : pkg.progress? entry.spec = some .resolving) : (pkg.setProgress entry.spec .done).Tame file owns := by
  have hself : (pkg.setProgress entry.spec .done).progress? entry.spec = some .done :=
    progress?_setProgress_self (by rw [hresolving]; rfl)
  have hbegun (spec : NodeId) (hspec : pkg.Begun spec) : (pkg.setProgress entry.spec .done).Begun spec := by
    by_cases hne : spec = entry.spec
    · rw [hne]
      exact .inr hself
    · rw [Begun, progress?_setProgress_of_ne hne]
      exact hspec
  have hother {e : Entry} (he : e.Fits file) (hrole' : e.role = .type) :
      (pkg.setProgress entry.spec .done).progress? e.spec = some .done ↔ pkg.progress? e.spec = some .done := by
    have hspec : e.spec ≠ entry.spec := fun heq => hrole ((he.role_eq h.forest hentry heq).symm.trans hrole')
    rw [progress?_setProgress_of_ne hspec]
  refine h.carry (h.toOrderly.ended hentry hrole) (.setProgress _ _ _) h.tidy h.clean
    (fun _ _ obj hobj => ⟨obj, hobj, rfl⟩) ?_ ?_
  · intro e he hrole' obj hobj
    exact (h.accounted e he hrole' obj hobj).later h.toOrderly hobj (.setProgress _ _ _) rfl (hother he hrole') hbegun
  · intro spec t howns
    have hheld := h.held spec t howns
    obtain ⟨e, he, hrole', rfl⟩ := hheld.fits
    exact hheld.later h.toOrderly (.setProgress _ _ _) (hother he hrole') rfl hbegun

/-- In a layered file, a type that is needed is not under way. -/
theorem bound_of_needs (h : pkg.Tame file owns) (hlayered : file.Layered) (hneeds : file.Needs x y)
    (howns : owns spec c) (hbegun : pkg.Begun spec) (hrefers : Relation.ReflTransGen file.Refers y spec)
    (hback : pkg.progress? spec = some .resolving → Relation.ReflTransGen file.Refers spec x) :
    (pkg.types.underlying? c).isSome := by
  refine (h.held spec c howns).bound (hbegun.resolve_left fun hresolving => ?_)
  exact hlayered x y hneeds (hrefers.trans (hback hresolving))

/-- A type or an alias that has been begun is traced to its declaration. -/
theorem traced_entity (h : pkg.Tame file owns) (hlayered : file.Layered) (hentry : entry.Fits file)
    (hrole : entry.role = .type) (hobj : pkg.objects.get? entry.name = some obj)
    (hprogress : pkg.progress? entry.spec ≠ some .pending) (hlead : pkg.Leads file x)
    (hrefers : file.Refers x entry.spec) : ∃ t, obj.typ = some t ∧ pkg.Traced file owns x t := by
  have haccounted := h.accounted entry hentry hrole obj hobj
  have hbegun : pkg.Begun entry.spec := by
    obtain ⟨progress, hspec⟩ := Option.isSome_iff_exists.1 haccounted.scheduled
    cases progress with
    | pending => exact absurd hspec hprogress
    | resolving => exact .inl hspec
    | done => exact .inr hspec
  cases htyp : obj.typ with
  | none =>
      -- An alias without a type is under way, and needs what it is declared with.
      obtain ⟨hop, hdone⟩ := haccounted.untyped htyp
      obtain ⟨y, hy, hback⟩ := hlead entry hentry hrole (hbegun.resolve_right hdone)
      exact absurd (hback.tail hrefers) (hlayered entry.spec y (.inl ⟨hy, fun hkw => absurd hkw hop⟩))
  | some t =>
      refine ⟨t, rfl, ?_⟩
      obtain howns | ⟨-, htraced⟩ := haccounted.typed t htyp
      · intro c hc
        obtain rfl := hc.eq_of_declared (h.held entry.spec t howns).declared
        exact .inr ⟨entry.spec, howns, hbegun, .single hrefers⟩
      · exact htraced.refers (.single hrefers)

/-- A type is ready if the declarations it comes from have ended. -/
theorem ready (h : pkg.Tame file owns) (ht : pkg.types.Knows t) (htraced : pkg.Traced file owns y t)
    (hvalid : pkg.types.isInvalid t = false)
    (hbound : ∀ spec c, owns spec c → pkg.Begun spec → Relation.ReflTransGen file.Refers y spec →
      (pkg.types.underlying? c).isSome) : pkg.types.Ready t := by
  have hmentioned {t c : TypeId} (htraced : pkg.Traced file owns y t) (hc : pkg.types.Mentions t c) :
      (pkg.types.underlying? c).isSome := by
    obtain ⟨u, hu, -⟩ | ⟨spec, howns, hbegun, hrefers⟩ := htraced c hc
    · rw [hu]
      rfl
    · exact hbound spec c howns hbegun hrefers
  have hsome : (pkg.types.underlying? t).isSome := by
    cases hdeclared : (pkg.types.shape t).isDeclared with
    | false =>
        rw [underlying?_of_built hdeclared]
        rfl
    | true => exact hmentioned htraced (.self hdeclared)
  obtain ⟨u, hu⟩ := Option.isSome_iff_exists.1 hsome
  exact h.tidy.ready hu (h.regular.toSound.underlying? ht hu).2 (valid_underlying h.tidy.toKinded hvalid hu)
    fun c hc => hmentioned (h.traced_underlying htraced hu) hc

end Tame

end Package

end GoSource
