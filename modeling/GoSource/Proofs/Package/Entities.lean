import GoSource.Proofs.Package.Signifies
import GoSource.Proofs.Typing.Relations

/-!
# Entities of a package under resolution

While declarations are resolved, types are handed out that stand for nothing yet, and declarations fail halfway.  What
can be said of the entities at every moment is said here.

* **`Package.Rooted`**: a type stands for something, or will when a declaration ends.
* **`Object.Valued`**: a constant has both a value and a type, which fit, or neither.
* **`SemanticFault.Fair`**: a mismatch was found while the declared type was not known to be invalid.
* **`Package.Formed`**, **`Package.Sane`**: what is known about the entity of a name, and about all of them.  One lemma
  a step says that it keeps a package sane.
* **`Package.Concludes`**: the declaration of a type ends with a meaning.  This is the step that touches most.
-/

namespace GoSource

open TypeTable

variable {file : ParsedFile} {start : TypeTable} {pkg pkg' : Package} {entry : Entry} {obj obj' : Object}
  {spec : NodeId} {t u meaning : TypeId}

/-! ### Types that stand for something -/

namespace TypeTable

variable {tt tt' : TypeTable}

/-- A type that stands for something keeps its kind. -/
theorem Grows.kind_of_bound (h : Grows tt tt') (hsound : tt.Sound) (ht : tt.Knows t)
    (hbound : (tt.underlying? t).isSome) : tt'.kind t = tt.kind t := by
  obtain ⟨u, hu⟩ := Option.isSome_iff_exists.1 hbound
  obtain ⟨hknown, hbuilt⟩ := hsound.underlying? ht hu
  rw [h.sound.kind_eq_underlying, hsound.kind_eq_underlying, underlyingShape?, underlyingShape?, hu,
    h.underlying?_eq ht hu, Option.map_some, h.shape_eq hknown hbuilt]
  rfl

theorem Grows.isSome_underlying? (h : Grows tt tt') (ht : tt.Knows t) (hbound : (tt.underlying? t).isSome) :
    (tt'.underlying? t).isSome := by
  obtain ⟨u, hu⟩ := Option.isSome_iff_exists.1 hbound
  rw [h.underlying?_eq ht hu]
  rfl

/-- A type is found to be invalid later only if it is now, or stands for nothing yet. -/
theorem Grows.isInvalid_before (h : Grows tt tt') (hsound : tt.Sound) (ht : tt.Knows t)
    (hbound : (tt'.underlying? t).isSome → (tt.underlying? t).isSome) (hinvalid : tt'.isInvalid t = true) :
    tt.isInvalid t = true := by
  obtain ⟨hsome, hkind⟩ := Bool.and_eq_true_iff.1 hinvalid
  have hbound := hbound hsome
  rw [decide_eq_true_eq, h.kind_of_bound hsound ht hbound] at hkind
  rw [TypeTable.isInvalid, hbound, hkind]
  rfl

/-- An invalid type remains so. -/
theorem Grows.isInvalid_after (h : Grows tt tt') (hsound : tt.Sound) (ht : tt.Knows t)
    (hinvalid : tt.isInvalid t = true) : tt'.isInvalid t = true := by
  obtain ⟨hbound, hkind⟩ := Bool.and_eq_true_iff.1 hinvalid
  rw [TypeTable.isInvalid, h.isSome_underlying? ht hbound, h.kind_of_bound hsound ht hbound, hkind]
  rfl

/-- A value fits a type that stands for something: it is of its kind. -/
structure Suits (tt : TypeTable) (v : ConstValue) (t : TypeId) : Prop where
  knows : tt.Knows t
  bound : (tt.underlying? t).isSome
  kind_eq : v.kind = tt.kind t

theorem Suits.grows {v : ConstValue} (h : tt.Suits v t) (hgrows : Grows tt tt') (hsound : tt.Sound) :
    tt'.Suits v t :=
  ⟨hgrows.knows h.knows, hgrows.isSome_underlying? h.knows h.bound,
    h.kind_eq.trans (hgrows.kind_of_bound hsound h.knows h.bound).symm⟩

/-- A value fits the type of its kind. -/
theorem Sound.suits_basic {kind : Kind} (h : tt.Sound) (hkind : kind.isBasic = true) (literal : String) :
    tt.Suits { kind, literal } (basic kind) := by
  have hshape := h.basics kind hkind
  have hbuilt : (tt.shape (basic kind)).isDeclared = false := by rw [hshape]; rfl
  refine ⟨knows_basic h hkind, ?_, ?_⟩
  · rw [underlying?_of_built hbuilt]
    rfl
  · rw [h.kind_eq_kindOf, kindOf_of_built hbuilt, hshape]
    rfl

/-- What is stored under a declared type without complaint, if the value's type stands for something: either the
declared type does so too, or it is that type. -/
theorem bound_of_assignable (h : tt.assignable t u = true) (ht : (tt.underlying? t).isSome) :
    (tt.underlying? u).isSome := by
  rw [assignable] at h
  split at h
  · next heq => rwa [← heq]
  · cases hu : tt.underlying? u with
    | some v => rfl
    | none =>
        rw [hu] at h
        cases htu : tt.underlying? t with
        | none =>
            rw [htu] at h
            cases h
        | some v =>
            rw [htu] at h
            cases h

end TypeTable

/-! ### Faults -/

/-- What is shown in a fault that says that a value may not be stored: the types of the value and of what is
declared. -/
def SemanticFault.mismatch? : SemanticFault → Option (String × String)
  | .constantMismatch _ value declared | .variableMismatch _ value declared => some (value, declared)
  | _ => none

/-- If a fault says that a value may not be stored, then it was found at some time between `start` and `now`: the two
types are shown as they were spelled then, the declared one was not known to be invalid, and the one of the value was
not assignable to it. -/
def SemanticFault.Fair (start now : TypeTable) (cause : SemanticFault) : Prop :=
  ∀ value declared, cause.mismatch? = some (value, declared) → ∃ tt t d,
    Reaches start tt ∧ Reaches tt now ∧ tt.Knows t ∧ tt.Knows d ∧
      value = tt.spell t ∧ declared = tt.spell d ∧ tt.isInvalid d = false ∧ tt.assignable t d = false

theorem SemanticFault.Fair.later {cause : SemanticFault} {now now' : TypeTable} (h : cause.Fair start now)
    (hreaches : Reaches now now') : cause.Fair start now' := by
  intro value declared hcause
  obtain ⟨tt, t, d, hbefore, hafter, hrest⟩ := h value declared hcause
  exact ⟨tt, t, d, hbefore, hafter.trans hreaches, hrest⟩

/-- Other faults need no reason. -/
theorem SemanticFault.fair_of_none {cause : SemanticFault} {now : TypeTable} (h : cause.mismatch? = none) :
    cause.Fair start now := by
  intro value declared hcause
  cases h.symm.trans hcause

/-! ### Entities -/

/-- A constant has both a value and a type, and the value fits; or it has neither. -/
def Object.Valued (obj : Object) (tt : TypeTable) : Prop :=
  obj.value = none ∧ obj.typ = none ∨ ∃ v t, obj.value = some v ∧ obj.typ = some t ∧ tt.Suits v t

theorem Object.Valued.grows {tt tt' : TypeTable} (h : obj.Valued tt) (hgrows : Grows tt tt') (hsound : tt.Sound) :
    obj.Valued tt' := by
  obtain hnone | ⟨v, t, hv, ht, hsuits⟩ := h
  · exact .inl hnone
  · exact .inr ⟨v, t, hv, ht, hsuits.grows hgrows hsound⟩

theorem Object.Valued.suits {tt : TypeTable} {v : ConstValue} (h : obj.Valued tt) (ht : obj.typ = some t)
    (hv : obj.value = some v) : tt.Suits v t := by
  obtain ⟨hnone, -⟩ | ⟨w, u, hw, hu, hsuits⟩ := h
  · cases hnone.symm.trans hv
  · cases hw.symm.trans hv
    cases hu.symm.trans ht
    exact hsuits

/-- An entity that needs no declaration: a type is valid, and a constant has its value. -/
structure Object.Furnished (obj : Object) (tt : TypeTable) : Prop where
  type : obj.role = .type → ∃ t, obj.typ = some t ∧ tt.Knows t ∧ (tt.underlying? t).isSome ∧ tt.isInvalid t = false
  constant : obj.role = .constant → obj.Valued tt

theorem Object.Furnished.grows {tt tt' : TypeTable} (h : obj.Furnished tt) (hgrows : Grows tt tt') (hsound : tt.Sound) :
    obj.Furnished tt' := by
  refine ⟨fun hrole => ?_, fun hrole => (h.constant hrole).grows hgrows hsound⟩
  obtain ⟨t, ht, hknown, hbound, hvalid⟩ := h.type hrole
  refine ⟨t, ht, hgrows.knows hknown, hgrows.isSome_underlying? hknown hbound, ?_⟩
  by_contra hinvalid
  rw [hgrows.isInvalid_before hsound hknown (fun _ => hbound) (by simpa using hinvalid)] at hvalid
  cases hvalid

/-- No entity loses anything when a declaration gets its meaning. -/
theorem Means.gains (h : Means entry meaning pkg pkg') {id : NodeId} (hobj : pkg.objects.get? id = some obj) :
    ∃ obj', pkg'.objects.get? id = some obj' ∧ obj.Gains obj' := by
  by_cases heq : id = entry.name
  · subst heq
    obtain ⟨own, hown, hdone⟩ := h.object
    cases hown.symm.trans hobj
    obtain ⟨-, hnow⟩ | ⟨hnone, hnow⟩ := hdone
    · exact ⟨obj, hnow, .refl obj⟩
    · refine ⟨_, hnow, rfl, fun t ht => ?_, fun _ hv => hv⟩
      cases hnone.symm.trans ht
  · exact ⟨obj, (h.get?_eq heq).trans hobj, .refl obj⟩

namespace Package

/-- A type stands for something, or belongs to a declaration that is not ended. -/
def Rooted (file : ParsedFile) (pkg : Package) (t : TypeId) : Prop :=
  (pkg.types.underlying? t).isSome ∨
    ∃ entry obj, pkg.Awaits file entry ∧ pkg.objects.get? entry.name = some obj ∧ obj.typ = some t

/-- What is known about an entity when its declaration is done: a type has a handle, and a variable that is declared
with a type has that, unless something is wrong. -/
structure Finished (file : ParsedFile) (pkg : Package) (entry : Entry) (obj : Object) : Prop where
  typed : entry.role = .type → obj.typ.isSome
  given : entry.role = .variable → (file.tree.part? entry.spec 1).isSome → obj.typ = none → pkg.Flawed file

/-- What is known about the entity of a name. -/
structure Formed (file : ParsedFile) (start : TypeTable) (pkg : Package) (entry : Entry) (obj : Object) : Prop where
  role_eq : obj.role = entry.role
  scheduled : entry.role ≠ .package → (pkg.progress? entry.spec).isSome
  /-- Before its declaration is begun, it has nothing. -/
  bare : entry.role ≠ .type → pkg.progress? entry.spec = some .pending → obj.typ = none ∧ obj.value = none
  rooted : entry.role = .type → ∀ t, obj.typ = some t → pkg.Rooted file t
  /-- A type is invalid for a reason. -/
  valid : entry.role = .type → ∀ t, obj.typ = some t → pkg.types.isInvalid t = true → pkg.Flawed file
  constant : entry.role = .constant → obj.Valued pkg.types
  /-- A variable that is declared with a type has that type. -/
  declared : entry.role = .variable → ∀ y, file.tree.part? entry.spec 1 = some y → ∀ t, obj.typ = some t →
    Answers file start y t pkg
  explained : pkg.Explained file start entry obj
  finished : pkg.progress? entry.spec = some .done → pkg.Finished file entry obj

/-- All entities of a package are as they should be. -/
structure Sane (file : ParsedFile) (start : TypeTable) (pkg : Package) : Prop extends
    pkg.Orderly file, pkg.StartsFrom start where
  fair : ∀ d ∈ pkg.faults, d.cause.Fair start pkg.types
  furnished : ∀ obj ∈ pkg.outer, obj.Furnished pkg.types
  present : ∀ name entry, pkg.declared? name = some entry → (pkg.objects.get? entry.name).isSome
  owned : ∀ id obj, pkg.objects.get? id = some obj → obj.role = .type ∨ obj.role = .constant →
    ∃ entry : Entry, entry.Fits file ∧ entry.name = id
  formed : ∀ entry : Entry, entry.Fits file → ∀ obj, pkg.objects.get? entry.name = some obj →
    pkg.Formed file start entry obj
  /-- Every declared type has a declaration of its own. -/
  sole : ∀ entry entry' t, pkg.Coins file entry t → pkg.Coins file entry' t → entry = entry'

/-! ### What is carried over -/

/-- What is known about an entity that is left alone. -/
theorem Formed.later (h : pkg.Formed file start entry obj) (horderly : pkg.Orderly file)
    (hobj : pkg.objects.get? entry.name = some obj) (hsteady : Steady pkg pkg') (hretains : Retains file pkg pkg')
    (hpending : pkg'.progress? entry.spec = some .pending → pkg.progress? entry.spec = some .pending)
    (hfinished : pkg'.progress? entry.spec = some .done →
      pkg.progress? entry.spec = some .done ∨ pkg'.Finished file entry obj)
    (hrooted : ∀ t, pkg.types.Knows t → pkg.Rooted file t → pkg'.Rooted file t)
    (hvalid : ∀ t, pkg.types.Knows t → pkg'.types.isInvalid t = true →
      pkg.types.isInvalid t = true ∨ pkg'.Flawed file)
    (hexplained : pkg'.Explained file start entry obj) : pkg'.Formed file start entry obj := by
  have hsound := horderly.regular.toSound
  have hgrows := hsteady.reaches.grows hsound
  have hknown (t : TypeId) (ht : obj.typ = some t) : pkg.types.Knows t := horderly.known _ obj t hobj ht
  exact {
    role_eq := h.role_eq
    scheduled := fun hrole => hsteady.isSome_progress? (h.scheduled hrole)
    bare := fun hrole hspec => h.bare hrole (hpending hspec)
    rooted := fun hrole t ht => hrooted t (hknown t ht) (h.rooted hrole t ht)
    valid := fun hrole t ht hinvalid =>
      (hvalid t (hknown t ht) hinvalid).elim (fun hold => hretains.flawed (h.valid hrole t ht hold)) id
    constant := fun hrole => (h.constant hrole).grows hgrows hsound
    declared := fun hrole y hy t ht => (h.declared hrole y hy t ht).later hretains
    explained := hexplained
    finished := fun hdone => by
      obtain hold | hfinished := hfinished hdone
      · have hbefore := h.finished hold
        exact ⟨hbefore.typed, fun hrole hpart hnone => hretains.flawed (hbefore.given hrole hpart hnone)⟩
      · exact hfinished }

namespace Sane

theorem sound (h : pkg.Sane file start) : pkg.types.Sound :=
  h.regular.toSound

/-- A type that came up in resolution is known, and is invalid for a reason. -/
theorem backed (h : pkg.Sane file start) (ht : Backed file pkg t) :
    pkg.types.Knows t ∧ pkg.Rooted file t ∧ (pkg.types.isInvalid t = true → pkg.Flawed file) := by
  cases ht with
  | @named name obj hobj hrole ht =>
      rw [lookup] at hobj
      cases hdeclared : pkg.declared? name with
      | some entry =>
          rw [hdeclared] at hobj
          have hentry := h.toOrderly.declared name entry hdeclared
          have hformed := h.formed entry hentry obj hobj
          have hrole := hformed.role_eq.symm.trans hrole
          exact ⟨h.known _ obj t hobj ht, hformed.rooted hrole t ht, hformed.valid hrole t ht⟩
      | none =>
          rw [hdeclared] at hobj
          obtain ⟨t', ht', hknown, hbound, hvalid⟩ :=
            (h.furnished obj (List.mem_of_find?_eq_some hobj)).type hrole
          cases ht.symm.trans ht'
          refine ⟨hknown, .inl hbound, fun hinvalid => ?_⟩
          rw [hvalid] at hinvalid
          cases hinvalid
  | built hkind =>
      have hbuilt : (pkg.types.shape t).isDeclared = false := by
        cases hs : pkg.types.shape t with
        | named =>
            rw [hs] at hkind
            exact absurd rfl hkind
        | _ => rfl
      refine ⟨knows_of_shape_ne fun hs => ?_, .inl (by rw [underlying?_of_built hbuilt]; rfl), fun hinvalid => ?_⟩
      · rw [hs] at hkind
        exact hkind rfl
      · have hinvalid := (Bool.and_eq_true_iff.1 hinvalid).2
        rw [decide_eq_true_eq, h.sound.kind_eq_kindOf, kindOf_of_built hbuilt] at hinvalid
        exact absurd hinvalid hkind
  | invalid ht hflawed =>
      subst ht
      refine ⟨h.regular.knows_invalid, .inl ?_, fun _ => hflawed⟩
      rw [TypeTable.underlying?, h.regular.shape_invalid]
      rfl

/-- The declared type of an entry is new. -/
theorem coined (h : pkg.Sane file start) (ht : pkg.Coins file entry t) :
    ¬start.Knows t ∧ ∃ bound ms, pkg.types.shape t = .named pkg.path (file.tree.literal entry.name) bound ms := by
  obtain ⟨obj, hobj, htyp⟩ := Option.bind_eq_some_iff.1 ht.typ_eq
  obtain ⟨t', ht', hnew, hs⟩ := (h.formed entry ht.fits obj hobj).explained.own ht.role_eq ht.op_eq
  cases htyp.symm.trans ht'
  exact ⟨hnew, hs⟩

/-- What the types in a package stand for, the declared types among them. -/
theorem underlies {S : Sense} (h : pkg.Sane file start) (hS : pkg.Stands file start t S)
    (hu : pkg.types.underlying? t = some u) (hvalid : u ≠ TypeTable.invalid) :
    ∃ U, Underlies (pkg.setting start) (Says file (pkg.setting start)) S U ∧ pkg.Stands file start u U := by
  cases hS with
  | declared hcoins =>
      obtain ⟨hfits, hrole, hop, htyp⟩ := hcoins
      obtain ⟨obj, hobj, ht⟩ := Option.bind_eq_some_iff.1 htyp
      obtain ⟨U, hU, hstands⟩ := (h.formed _ hfits obj hobj).explained.meaning hrole hop t u ht hu hvalid
      exact ⟨U, .declared hU, hstands⟩
  | given hgiven =>
      obtain ⟨u', U, hu', hU, -⟩ := h.grounded.meaning t hgiven
      obtain ⟨hknown, -⟩ := h.toStartsFrom.given hgiven
      have hgrows := h.begins.grows h.origin
      cases hu.symm.trans ((hgrows.underlying?_eq hknown hu'))
      exact ⟨U, .given hgiven hu' hU, hU.later hgrows.toExtends nofun⟩
  | built hs hbuilt hinvalid hspreads hparts hD =>
      have hself : pkg.types.underlying? t = some t := underlying?_of_built (hs ▸ hbuilt)
      cases hu.symm.trans hself
      exact ⟨_, .built _ _, .built hs hbuilt hinvalid hspreads hparts hD⟩

/-! ### Steps -/

theorem flawed_grows (h : pkg.Flawed file) {faults : List (Diagnostic SemanticFault)}
    (hfaults : pkg'.faults = pkg.faults ++ faults.toArray) : pkg'.Flawed file := by
  refine h.imp_right fun hne hempty => hne ?_
  rw [hfaults, Array.append_eq_empty_iff] at hempty
  exact hempty.1

/-- Where no entity loses anything, what is expressed is retained. -/
theorem retains (horderly : pkg.Orderly file) (hsteady : Steady pkg pkg')
    (hobjects : ∀ entry : Entry, entry.Fits file → ∀ obj, pkg.objects.get? entry.name = some obj →
      ∃ obj', pkg'.objects.get? entry.name = some obj' ∧ obj.Gains obj')
    (hflawed : pkg.Flawed file → pkg'.Flawed file) : Retains file pkg pkg' := by
  refine ⟨fun name obj hobj => ?_, hobjects, (hsteady.reaches.grows horderly.regular.toSound).toExtends,
    hsteady.scope_eq, hsteady.outer_eq, hsteady.path_eq, hflawed⟩
  have hdeclared : pkg'.declared? name = pkg.declared? name := by rw [declared?, declared?, hsteady.scope_eq]
  rw [lookup] at hobj
  rw [lookup, hdeclared]
  cases hentry : pkg.declared? name with
  | some entry =>
      rw [hentry] at hobj
      exact hobjects entry (horderly.declared name entry hentry) obj hobj
  | none =>
      rw [hentry] at hobj
      exact ⟨obj, by rw [predeclared?, hsteady.outer_eq]; exact hobj, .refl obj⟩

/-- A package is sane again if its entities are formed, and no type or constant has come from nowhere. -/
theorem carry (h : pkg.Sane file start) (horderly : pkg'.Orderly file) (hsteady : Steady pkg pkg')
    (hretains : Retains file pkg pkg') (hfair : ∀ d ∈ pkg'.faults, d.cause.Fair start pkg'.types)
    (hpresent : ∀ id, (pkg.objects.get? id).isSome → (pkg'.objects.get? id).isSome)
    (howned : ∀ id obj', pkg'.objects.get? id = some obj' → obj'.role = .type ∨ obj'.role = .constant →
      ∃ obj, pkg.objects.get? id = some obj ∧ obj'.role = obj.role)
    (hformed : ∀ entry : Entry, entry.Fits file → ∀ obj', pkg'.objects.get? entry.name = some obj' →
      pkg'.Formed file start entry obj') : pkg'.Sane file start := by
  have hgrows := hsteady.reaches.grows h.sound
  -- A declared type had its type before.
  have hcoins (e : Entry) (t : TypeId) (he : pkg'.Coins file e t) : pkg.Coins file e t := by
    obtain ⟨hfits, hrole, hop, htyp⟩ := he
    obtain ⟨obj', hobj', ht⟩ := Option.bind_eq_some_iff.1 htyp
    obtain ⟨obj, hobj, -⟩ := howned e.name obj' hobj' (.inl ((hformed e hfits obj' hobj').role_eq.trans hrole))
    obtain ⟨u, hu, -⟩ := (h.formed e hfits obj hobj).explained.own hrole hop
    obtain ⟨obj'', hobj'', hgains⟩ := hretains.objects e hfits obj hobj
    cases hobj'.symm.trans hobj''
    cases ht.symm.trans (hgains.typ u hu)
    exact ⟨hfits, hrole, hop, Option.bind_eq_some_iff.2 ⟨obj, hobj, hu⟩⟩
  exact {
    toOrderly := horderly
    toStartsFrom := h.toStartsFrom.later hsteady.outer_eq hsteady.reaches
    fair := hfair
    furnished := fun obj hobj => (h.furnished obj (hsteady.outer_eq ▸ hobj)).grows hgrows h.sound
    present := fun name entry hentry => by
      refine hpresent _ (h.present name entry ?_)
      rwa [declared?, ← hsteady.scope_eq]
    owned := fun id obj' hobj' hrole => by
      obtain ⟨obj, hobj, hsame⟩ := howned id obj' hobj' hrole
      exact h.owned id obj hobj (hsame ▸ hrole)
    formed := hformed
    sole := fun e e' t he he' => h.sole e e' t (hcoins e t he) (hcoins e' t he') }

/-- A package stays sane if all types that are awaited stay so, and types stand for what they stood for. -/
theorem keep (h : pkg.Sane file start) (horderly : pkg'.Orderly file) (hsteady : Steady pkg pkg')
    (hretains : Retains file pkg pkg') (hfair : ∀ d ∈ pkg'.faults, d.cause.Fair start pkg'.types)
    (hpresent : ∀ id, (pkg.objects.get? id).isSome → (pkg'.objects.get? id).isSome)
    (howned : ∀ id obj', pkg'.objects.get? id = some obj' → obj'.role = .type ∨ obj'.role = .constant →
      ∃ obj, pkg.objects.get? id = some obj ∧ obj'.role = obj.role)
    (hpending : ∀ spec, pkg'.progress? spec = some .pending → pkg.progress? spec = some .pending)
    (hopen : ∀ spec, pkg'.Open spec → pkg.Open spec)
    (hawaits : ∀ entry, pkg.Awaits file entry → pkg'.Awaits file entry ∧
      pkg'.objects.get? entry.name = pkg.objects.get? entry.name)
    (hunderlying : ∀ t, pkg.types.Knows t → pkg'.types.underlying? t = pkg.types.underlying? t)
    (hobjects : ∀ entry : Entry, entry.Fits file → ∀ obj', pkg'.objects.get? entry.name = some obj' →
      pkg'.Formed file start entry obj' ∨ pkg.objects.get? entry.name = some obj' ∧
        (pkg'.progress? entry.spec = some .done →
          pkg.progress? entry.spec = some .done ∨ pkg'.Finished file entry obj')) :
    pkg'.Sane file start := by
  have hgrows := hsteady.reaches.grows h.sound
  refine h.carry horderly hsteady hretains hfair hpresent howned fun entry hentry obj' hobj' => ?_
  obtain hformed | ⟨hobj, hfinished⟩ := hobjects entry hentry obj' hobj'
  · exact hformed
  · refine (h.formed entry hentry obj' hobj).later h.toOrderly hobj hsteady hretains (hpending _) hfinished ?_ ?_
      ((h.formed entry hentry obj' hobj).explained.later hretains (hopen _)
        fun _ _ t ht => hunderlying t (h.known _ obj' t hobj ht))
    · rintro t ht (hbound | ⟨e, obj, he, hobj, htyp⟩)
      · exact .inl (hgrows.isSome_underlying? ht hbound)
      · obtain ⟨he', hsame⟩ := hawaits e he
        exact .inr ⟨e, obj, he', hsame.trans hobj, htyp⟩
    · intro t ht hinvalid
      refine .inl (hgrows.isInvalid_before h.sound ht (fun hbound => ?_) hinvalid)
      rwa [← hunderlying t ht]

/-- A package stays sane if only its types, its methods and its faults change. -/
theorem around (h : pkg.Sane file start) (horderly : pkg'.Orderly file) (hsteady : Steady pkg pkg')
    (htasks : pkg'.tasks = pkg.tasks) (hobjects : pkg'.objects = pkg.objects)
    (faults : List (Diagnostic SemanticFault)) (hfaults : pkg'.faults = pkg.faults ++ faults.toArray)
    (hfair : ∀ d ∈ faults, d.cause.Fair start pkg'.types)
    (hunderlying : ∀ t, pkg.types.Knows t → pkg'.types.underlying? t = pkg.types.underlying? t) :
    pkg'.Sane file start := by
  have hprogress := progress?_congr htasks
  have hretains : Retains file pkg pkg' := by
    refine retains h.toOrderly hsteady (fun entry _ obj hobj => ⟨obj, ?_, .refl obj⟩)
      fun hflawed => flawed_grows hflawed hfaults
    rwa [hobjects]
  refine h.keep horderly hsteady hretains (fun d hd => ?fair) (fun id hid => ?present) (fun id obj hobj _ => ?owned)
    (fun spec hspec => ?pending) (fun spec hspec => ?opens) (fun entry hentry => ?awaits) hunderlying
    (fun entry _ obj hobj => ?objects)
  case fair =>
    rw [hfaults] at hd
    obtain hd | hd := Array.mem_append.1 hd
    · exact (h.fair d hd).later hsteady.reaches
    · exact hfair d (List.mem_toArray.1 hd)
  case present => rwa [hobjects]
  case owned =>
    rw [hobjects] at hobj
    exact ⟨obj, hobj, rfl⟩
  case pending => rwa [← hprogress]
  case opens => rwa [Open, ← hprogress]
  case awaits =>
    refine ⟨⟨hentry.fits, hentry.role_eq, ?_⟩, by rw [hobjects]⟩
    rw [Open, hprogress]
    exact hentry.isOpen
  case objects =>
    rw [hobjects] at hobj
    rw [hprogress]
    exact .inr ⟨hobj, .inl⟩

theorem build (h : pkg.Sane file start) {types : TypeTable} (hbuilds : pkg.types.Builds types) :
    ({ pkg with types } : Package).Sane file start := by
  refine h.around (h.toOrderly.build hbuilds) ⟨rfl, rfl, rfl, rfl, hbuilds.reaches⟩ rfl rfl []
    (Array.append_empty).symm nofun fun t ht => ?_
  rw [TypeTable.underlying?, hbuilds.shape_eq t ht]
  rfl

theorem note (h : pkg.Sane file start) (methods : List (String × String)) :
    ({ pkg with methods } : Package).Sane file start :=
  h.around (h.toOrderly.note methods) ⟨rfl, rfl, rfl, rfl, .refl⟩ rfl rfl [] (Array.append_empty).symm nofun
    fun _ _ => rfl

theorem recorded (h : pkg.Sane file start) {fault : Option (Diagnostic SemanticFault)}
    (hfault : ∀ d, fault = some d → d.cause.Fair start pkg.types) : (pkg.recorded fault).Sane file start :=
  h.around (h.toOrderly.recorded fault) ⟨rfl, rfl, rfl, rfl, .refl⟩ rfl rfl fault.toList rfl
    (fun d hd => hfault d (Option.mem_toList.1 hd)) fun _ _ => rfl

/-- Beginning a declaration. -/
theorem begin (h : pkg.Sane file start) (hpending : pkg.progress? spec = some .pending) :
    (pkg.setProgress spec .resolving).Sane file start := by
  have hself : (pkg.setProgress spec .resolving).progress? spec = some .resolving :=
    progress?_setProgress_self (by rw [hpending]; rfl)
  have hsteady : Steady pkg (pkg.setProgress spec .resolving) := .setProgress _ _ _
  have hretains := retains h.toOrderly hsteady (fun _ _ obj hobj => ⟨obj, hobj, .refl obj⟩) fun hflawed => hflawed
  refine h.keep (h.toOrderly.begin hpending) hsteady hretains h.fair (fun _ hid => hid)
    (fun _ obj hobj _ => ⟨obj, hobj, rfl⟩) (fun spec' hspec' => ?pending) (fun spec' hspec' => ?opens)
    (fun entry hentry => ?awaits) (fun _ _ => rfl) (fun entry _ obj hobj => .inr ⟨hobj, fun hdone => .inl ?finished⟩)
  case pending =>
    by_cases heq : spec' = spec
    · rw [heq, hself] at hspec'
      cases hspec'
    · rwa [progress?_setProgress_of_ne heq] at hspec'
  case opens =>
    by_cases heq : spec' = spec
    · exact .inl (heq ▸ hpending)
    · rwa [Open, progress?_setProgress_of_ne heq] at hspec'
  case awaits =>
    refine ⟨⟨hentry.fits, hentry.role_eq, ?_⟩, rfl⟩
    by_cases heq : entry.spec = spec
    · rw [heq]
      exact .inr hself
    · rw [Open, progress?_setProgress_of_ne heq]
      exact hentry.isOpen
  case finished =>
    by_cases heq : entry.spec = spec
    · rw [heq, hself] at hdone
      cases hdone
    · rwa [progress?_setProgress_of_ne heq] at hdone

/-- Giving a value or a type to a name of the declaration that is under way. -/
theorem give (h : pkg.Sane file start) {name : NodeId} {f : Object → Object} (hrole : entry.role ≠ .type)
    (hname : ({ entry with name } : Entry).Fits file) (hresolving : pkg.progress? entry.spec = some .resolving)
    (hknown : ∀ obj t, (f obj).typ = some t → pkg.types.Knows t)
    (hgains : ∀ obj, pkg.objects.get? name = some obj → obj.Gains (f obj))
    (hvalued : entry.role = .constant → ∀ obj, (f obj).Valued pkg.types)
    (hdeclared : entry.role = .variable → ∀ y, file.tree.part? entry.spec 1 = some y →
      ∀ obj t, (f obj).typ = some t → Answers file start y t pkg)
    (hsense : ∀ obj t, (f obj).typ = some t → t ≠ TypeTable.invalid →
      ∃ S, Says file (pkg.setting start) (.name { entry with name }) S ∧ pkg.Stands file start t S)
    (hvalue : ∀ obj v, pkg.objects.get? name = some obj → (f obj).value = some v →
      ∃ x, Initializes file { entry with name } x ∧ States file (pkg.setting start) x v.literal) :
    ({ pkg with objects := pkg.objects.modify name f } : Package).Sane file start ∧
      Retains file pkg { pkg with objects := pkg.objects.modify name f } := by
  have hsteady : Steady pkg { pkg with objects := pkg.objects.modify name f } := ⟨rfl, rfl, rfl, rfl, .refl⟩
  have hself : (pkg.objects.modify name f).get? name = (pkg.objects.get? name).map f := NodeMap.get?_modify_self _ _ _
  have hretains : Retains file pkg { pkg with objects := pkg.objects.modify name f } := by
    refine retains h.toOrderly hsteady (fun e _ obj hobj => ?_) fun hflawed => hflawed
    show ∃ obj', (pkg.objects.modify name f).get? e.name = some obj' ∧ _
    by_cases hid : e.name = name
    · rw [hid] at hobj ⊢
      exact ⟨f obj, by rw [hself, hobj]; rfl, hgains obj hobj⟩
    · exact ⟨obj, by rw [NodeMap.get?_modify_of_ne _ _ hid]; exact hobj, .refl obj⟩
  refine ⟨h.keep (h.toOrderly.give hrole hname hknown) hsteady hretains h.fair (fun id hid => ?present)
    (fun id obj' hobj' _ => ?owned) (fun _ hspec => hspec) (fun _ hspec => hspec) (fun e he => ?awaits)
    (fun _ _ => rfl) (fun e he obj' hobj' => ?objects), hretains⟩
  case present =>
    show ((pkg.objects.modify name f).get? id).isSome
    by_cases heq : id = name
    · rw [heq] at hid ⊢
      rwa [hself, Option.isSome_map]
    · rwa [NodeMap.get?_modify_of_ne _ _ heq]
  case owned =>
    have hobj' : (pkg.objects.modify name f).get? id = some obj' := hobj'
    by_cases heq : id = name
    · rw [heq, hself, Option.map_eq_some_iff] at hobj'
      obtain ⟨obj, hobj, rfl⟩ := hobj'
      exact ⟨obj, heq ▸ hobj, (hgains obj hobj).role_eq⟩
    · rw [NodeMap.get?_modify_of_ne _ _ heq] at hobj'
      exact ⟨obj', hobj', rfl⟩
  case awaits =>
    refine ⟨⟨he.fits, he.role_eq, he.isOpen⟩, NodeMap.get?_modify_of_ne _ _ fun heq => hrole ?_⟩
    exact (congrArg Entry.role (he.fits.eq_of_name h.forest hname heq)).symm.trans he.role_eq
  case objects =>
    have hobj' : (pkg.objects.modify name f).get? e.name = some obj' := hobj'
    by_cases heq : e.name = name
    · obtain rfl := he.eq_of_name h.forest hname heq
      rw [hself, Option.map_eq_some_iff] at hobj'
      obtain ⟨obj, hobj, rfl⟩ := hobj'
      have hformed := h.formed _ he obj hobj
      have hnot {progress : Progress} (hne : progress ≠ .resolving) : pkg.progress? entry.spec ≠ some progress := by
        rw [hresolving]
        exact fun heq => hne (Option.some.inj heq).symm
      exact .inl
        { role_eq := (hgains obj hobj).role_eq.trans hformed.role_eq
          scheduled := hformed.scheduled
          bare := fun _ hpending => absurd hpending (hnot nofun)
          rooted := fun htype => absurd htype hrole
          valid := fun htype => absurd htype hrole
          constant := fun hconstant => hvalued hconstant obj
          declared := fun hvariable y hy t ht => (hdeclared hvariable y hy obj t ht).later hretains
          explained :=
            { own := fun htype => absurd htype hrole
              unset := fun htype => absurd htype hrole
              sense := fun t ht hvalid => hretains.sensible (hsense obj t ht hvalid)
              meaning := fun htype => absurd htype hrole
              value := fun v hv => by
                rw [hretains.setting_eq]
                exact hvalue obj v hobj hv }
          finished := fun hdone => absurd hdone (hnot nofun) }
    · rw [NodeMap.get?_modify_of_ne _ _ heq] at hobj'
      exact .inr ⟨hobj', .inl⟩

/-- Ending a declaration of constants, variables or a function. -/
theorem ended (h : pkg.Sane file start) (hentry : entry.Fits file) (hrole : entry.role ≠ .type)
    (hresolving : pkg.progress? entry.spec = some .resolving) {fault : Option (Diagnostic SemanticFault)}
    (hfault : ∀ d, fault = some d → d.cause.Fair start pkg.types)
    (hgiven : fault = none → entry.role = .variable → (file.tree.part? entry.spec 1).isSome →
      ∀ e : Entry, e.Fits file → e.spec = entry.spec → ∀ obj, pkg.objects.get? e.name = some obj → obj.typ.isSome) :
    ((pkg.setProgress entry.spec .done).recorded fault).Sane file start ∧
      Retains file pkg ((pkg.setProgress entry.spec .done).recorded fault) := by
  have hsteady : Steady pkg ((pkg.setProgress entry.spec .done).recorded fault) :=
    (Steady.setProgress pkg entry.spec .done).trans ⟨rfl, rfl, rfl, rfl, .refl⟩
  have hself : (pkg.setProgress entry.spec .done).progress? entry.spec = some .done :=
    progress?_setProgress_self (by rw [hresolving]; rfl)
  have hretains : Retains file pkg ((pkg.setProgress entry.spec .done).recorded fault) :=
    retains h.toOrderly hsteady (fun _ _ obj hobj => ⟨obj, hobj, .refl obj⟩) fun hflawed => flawed_grows hflawed rfl
  refine ⟨h.keep ((h.toOrderly.ended hentry hrole).recorded fault) hsteady hretains (fun d hd => ?fair)
    (fun _ hid => hid) (fun _ obj hobj _ => ⟨obj, hobj, rfl⟩) (fun spec hspec => ?pending) (fun spec hspec => ?opens)
    (fun e he => ?awaits) (fun _ _ => rfl) (fun e he obj hobj => .inr ⟨hobj, fun hdone => ?finished⟩), hretains⟩
  case fair =>
    obtain hd | hd := Array.mem_append.1 hd
    · exact h.fair d hd
    · exact hfault d (Option.mem_toList.1 (List.mem_toArray.1 hd))
  case pending =>
    by_cases heq : spec = entry.spec
    · rw [heq] at hspec
      cases hself.symm.trans hspec
    · exact (progress?_setProgress_of_ne heq).symm.trans hspec
  case opens =>
    have hspec : (pkg.setProgress entry.spec .done).Open spec := hspec
    by_cases heq : spec = entry.spec
    · exact .inr (heq ▸ hresolving)
    · rwa [Open, progress?_setProgress_of_ne heq] at hspec
  case awaits =>
    have hne : e.spec ≠ entry.spec := fun heq =>
      hrole ((he.fits.role_eq h.forest hentry heq).symm.trans he.role_eq)
    refine ⟨⟨he.fits, he.role_eq, ?_⟩, rfl⟩
    have hopen := he.isOpen
    rw [Open, ← progress?_setProgress_of_ne hne] at hopen
    exact hopen
  case finished =>
    by_cases heq : e.spec = entry.spec
    · have hsame := he.role_eq h.forest hentry heq
      refine .inr ⟨fun htype => absurd (hsame.symm.trans htype) hrole, fun hvariable hpart hnone => ?_⟩
      cases fault with
      | some d => exact .inr fun hempty => by simp [Package.recorded] at hempty
      | none =>
          have hsome := hgiven rfl (hsame.symm.trans hvariable) (heq ▸ hpart) e he heq obj hobj
          rw [hnone] at hsome
          cases hsome
    · exact .inl ((progress?_setProgress_of_ne heq).symm.trans hdone)

end Sane

/-! ### Types that get their meaning -/

/-- The declaration of a type ends: it has got its meaning, which is invalid for a reason. -/
structure Concludes (file : ParsedFile) (start : TypeTable) (entry : Entry) (meaning : TypeId)
    (fault : Option (Diagnostic SemanticFault)) (pkg pkg' last : Package) : Prop where
  sane : pkg.Sane file start
  fits : entry.Fits file
  role_eq : entry.role = .type
  resolving : pkg.progress? entry.spec = some .resolving
  means : Means entry meaning pkg pkg'
  rooted : pkg.Rooted file meaning
  signifies : meaning ≠ TypeTable.invalid →
    ∃ y, file.tree.part? entry.spec 1 = some y ∧ Signifies file start pkg y meaning
  fair : ∀ d, fault = some d → d.cause.Fair start pkg.types
  valid : fault = none → pkg.types.isInvalid meaning = true → pkg.Flawed file
  last_eq : last = (pkg'.setProgress entry.spec .done).recorded fault

namespace Concludes

variable {last : Package} {fault : Option (Diagnostic SemanticFault)}
  (h : Concludes file start entry meaning fault pkg pkg' last)
include h

theorem awaits : pkg.Awaits file entry :=
  ⟨h.fits, h.role_eq, .inr h.resolving⟩

theorem types_eq : last.types = pkg'.types := by
  rw [h.last_eq]
  rfl

theorem objects_eq : last.objects = pkg'.objects := by
  rw [h.last_eq]
  rfl

theorem faults_eq : last.faults = pkg.faults ++ fault.toList.toArray := by
  rw [h.last_eq]
  exact congrArg (· ++ _) h.means.faults_eq

theorem progress?_self : last.progress? entry.spec = some .done := by
  rw [h.last_eq]
  exact h.means.progress?_self h.resolving

theorem progress?_of_ne (hne : spec ≠ entry.spec) : last.progress? spec = pkg.progress? spec := by
  rw [h.last_eq]
  exact h.means.progress?_of_ne hne

theorem closed : ¬last.Open entry.spec := by
  rw [Open, h.progress?_self]
  simp

theorem steady : Steady pkg last := by
  rw [h.last_eq]
  exact (h.means.steady.trans (.setProgress pkg' entry.spec .done)).trans ⟨rfl, rfl, rfl, rfl, .refl⟩

theorem grows : Grows pkg.types last.types :=
  h.steady.reaches.grows h.sane.sound

theorem orderly : last.Orderly file := by
  rw [h.last_eq]
  exact (h.sane.toOrderly.means h.awaits h.means).recorded fault

theorem retains : Retains file pkg last := by
  refine Sane.retains h.sane.toOrderly h.steady (fun _ _ obj hobj => ?_) fun hflawed =>
    Sane.flawed_grows hflawed h.faults_eq
  rw [h.objects_eq]
  exact h.means.gains hobj

theorem flawed_of_fault (hfault : fault ≠ none) : last.Flawed file := by
  refine .inr fun hempty => hfault ?_
  rw [h.faults_eq, Array.append_eq_empty_iff] at hempty
  cases fault with
  | none => rfl
  | some d => cases hempty.2

theorem flawed_of_invalid (hinvalid : pkg.types.isInvalid meaning = true) : last.Flawed file := by
  by_cases hfault : fault = none
  · exact h.retains.flawed (h.valid hfault hinvalid)
  · exact h.flawed_of_fault hfault

/-- The declared type stands for what its meaning stands for, and other types for what they stood for. -/
theorem underlying? (hobj : pkg.objects.get? entry.name = some obj) (t : TypeId) :
    (obj.typ = some t ∧ ∃ u, pkg.types.underlying? meaning = some u ∧ last.types.underlying? t = some u) ∨
      obj.typ ≠ some t ∧ last.types.underlying? t = pkg.types.underlying? t := by
  rw [h.types_eq]
  exact h.means.underlying? hobj t

/-- A type becomes invalid only if it is the one that is declared, and its meaning is invalid. -/
theorem invalid_before (ht : pkg.types.Knows t) (hnow : last.types.isInvalid t = true) :
    pkg.types.isInvalid t = true ∨ last.Flawed file := by
  obtain ⟨obj, hobj, -⟩ := h.means.object
  obtain ⟨-, u, hu, hu'⟩ | ⟨-, hsame⟩ := h.underlying? hobj t
  · refine .inr (h.flawed_of_invalid ?_)
    have hkind := (Bool.and_eq_true_iff.1 hnow).2
    rw [decide_eq_true_eq, h.grows.sound.kind_eq_underlying, underlyingShape?, hu'] at hkind
    obtain ⟨hknown, hbuilt⟩ := h.sane.sound.underlying? h.means.knows hu
    rw [TypeTable.isInvalid, hu, h.sane.sound.kind_eq_underlying, underlyingShape?, hu, Option.map_some,
      ← h.grows.shape_eq hknown hbuilt]
    exact decide_eq_true hkind
  · refine .inl (h.grows.isInvalid_before h.sane.sound ht (fun hbound => ?_) hnow)
    rwa [← hsame]

/-- The types that stand for something, or will, go on to do so. -/
theorem rooted_after (ht : pkg.types.Knows t) (hrooted : pkg.Rooted file t) : last.Rooted file t := by
  obtain hbound | ⟨e, obj, he, hobj, htyp⟩ := hrooted
  · exact .inl (h.grows.isSome_underlying? ht hbound)
  · by_cases heq : e = entry
    · subst heq
      obtain ⟨-, u, -, hu⟩ | ⟨hne, -⟩ := h.underlying? hobj t
      · exact .inl (Option.isSome_of_mem hu)
      · exact absurd htyp hne
    · have hspec : e.spec ≠ entry.spec := fun hspec =>
        heq (he.fits.eq_of_spec h.sane.forest h.fits he.role_eq hspec)
      have hname : e.name ≠ entry.name := fun hname => heq (he.fits.eq_of_name h.sane.forest h.fits hname)
      refine .inr ⟨e, obj, ⟨he.fits, he.role_eq, ?_⟩, ?_, htyp⟩
      · rw [Open, h.progress?_of_ne hspec]
        exact he.isOpen
      · rw [h.objects_eq]
        exact (h.means.get?_eq hname).trans hobj

/-- A declared type that has got its meaning stands for what the file says. -/
theorem explained_bound (hobj : pkg.objects.get? entry.name = some obj) : last.Explained file start entry obj := by
  have hbefore := (h.sane.formed entry h.fits obj hobj).explained
  exact {
    own := fun hrole hop => by
      obtain ⟨t, ht, hnew, bound, ms, hs⟩ := hbefore.own hrole hop
      obtain ⟨bound', ms', hs', -⟩ := h.retains.extends_types.named_eq hs
      exact ⟨t, ht, hnew, bound', ms', h.retains.path_eq ▸ hs'⟩
    unset := fun _ _ hopen => absurd hopen h.closed
    sense := fun t ht hvalid => h.retains.sensible (hbefore.sense t ht hvalid)
    meaning := fun hrole hop t u ht hu hvalid => by
      obtain ⟨-, u', hmeaning, hu'⟩ | ⟨hne, -⟩ := h.underlying? hobj t
      · cases hu.symm.trans hu'
        obtain ⟨y, hy, -, S, hS, hstands⟩ := h.signifies (by
          rintro rfl
          rw [TypeTable.underlying?, h.sane.regular.shape_invalid] at hmeaning
          exact hvalid (Option.some.inj hmeaning).symm)
        obtain ⟨U, hunder, hU⟩ := h.sane.underlies hstands hmeaning hvalid
        exact h.retains.sensible ⟨U, (Rule.meaning hy hS hunder).said, hU⟩
      · exact absurd ht hne
    value := fun v hv => by
      rw [h.retains.setting_eq]
      exact hbefore.value v hv }

/-- An alias that has got its meaning stands for what the file says. -/
theorem explained_taken (hobj : pkg.objects.get? entry.name = some obj) (hnone : obj.typ = none) :
    last.Explained file start entry { obj with typ := some meaning } := by
  have hbefore := (h.sane.formed entry h.fits obj hobj).explained
  have halias : file.tree.op entry.spec ≠ .kw .type := by
    intro hop
    obtain ⟨t, ht, -⟩ := hbefore.own h.role_eq hop
    cases hnone.symm.trans ht
  exact {
    own := fun _ hop => absurd hop halias
    unset := fun _ _ hopen => absurd hopen h.closed
    sense := fun t ht hvalid => by
      cases ht
      obtain ⟨y, hy, -, S, hS, hstands⟩ := h.signifies hvalid
      exact h.retains.sensible ⟨S, (Rule.name (.synonym h.role_eq halias hy hS)).said, hstands⟩
    meaning := fun _ hop => absurd hop halias
    value := fun v hv => by
      rw [h.retains.setting_eq]
      exact hbefore.value v hv }

/-- A declared type is as it should be. -/
theorem formed_bound (hobj : pkg.objects.get? entry.name = some obj) (hsome : obj.typ.isSome) :
    last.Formed file start entry obj := by
  refine (h.sane.formed entry h.fits obj hobj).later h.sane.toOrderly hobj h.steady h.retains (fun hpending => ?pending)
    (fun _ => .inr ⟨fun _ => hsome, fun hvariable => ?role⟩) (fun _ => h.rooted_after) (fun _ => h.invalid_before)
    (h.explained_bound hobj)
  case pending => cases h.progress?_self.symm.trans hpending
  case role => cases h.role_eq.symm.trans hvariable

/-- An alias is as it should be. -/
theorem formed_taken (hobj : pkg.objects.get? entry.name = some obj) (hnone : obj.typ = none) :
    last.Formed file start entry { obj with typ := some meaning } := by
  have hformed := h.sane.formed entry h.fits obj hobj
  exact {
    role_eq := hformed.role_eq
    scheduled := fun hpackage => h.steady.isSome_progress? (hformed.scheduled hpackage)
    bare := fun hne => absurd h.role_eq hne
    rooted := fun _ t ht => by
      cases ht
      exact h.rooted_after h.means.knows h.rooted
    valid := fun _ t ht hnow => by
      cases ht
      exact (h.invalid_before h.means.knows hnow).elim h.flawed_of_invalid id
    constant := fun hconstant => by cases h.role_eq.symm.trans hconstant
    declared := fun hvariable => by cases h.role_eq.symm.trans hvariable
    explained := h.explained_taken hobj hnone
    finished := fun _ => ⟨fun _ => rfl, fun hvariable => by cases h.role_eq.symm.trans hvariable⟩ }

/-- The type that gets a meaning belongs to its declaration alone. -/
theorem underlying?_of_ne {e : Entry} (he : e.Fits file) (hname : e.name ≠ entry.name)
    (hobj : pkg.objects.get? e.name = some obj) (hrole : e.role = .type) (hop : file.tree.op e.spec = .kw .type)
    (ht : obj.typ = some t) : last.types.underlying? t = pkg.types.underlying? t := by
  obtain ⟨own, hown, -⟩ := h.means.object
  obtain ⟨htyp, -⟩ | ⟨-, hsame⟩ := h.underlying? hown t
  · have hop' : file.tree.op entry.spec = .kw .type := by
      by_contra hne
      cases ((h.sane.formed entry h.fits own hown).explained.unset h.role_eq hne h.awaits.isOpen).symm.trans htyp
    exact absurd (congrArg Entry.name (h.sane.sole e entry t
      ⟨he, hrole, hop, Option.bind_eq_some_iff.2 ⟨obj, hobj, ht⟩⟩
      ⟨h.fits, h.role_eq, hop', Option.bind_eq_some_iff.2 ⟨own, hown, htyp⟩⟩)) hname
  · exact hsame

/-- The other entities are as they were. -/
theorem formed_of_ne {e : Entry} (he : e.Fits file) (hname : e.name ≠ entry.name)
    (hobj : pkg.objects.get? e.name = some obj) : last.Formed file start e obj := by
  have hspec : e.spec ≠ entry.spec := fun hspec =>
    hname (congrArg Entry.name (h.fits.eq_of_spec h.sane.forest he h.role_eq hspec.symm)).symm
  have hformed := h.sane.formed e he obj hobj
  refine hformed.later h.sane.toOrderly hobj h.steady h.retains (h.progress?_of_ne hspec ▸ id)
    (fun hdone => .inl (h.progress?_of_ne hspec ▸ hdone)) (fun _ => h.rooted_after) (fun _ => h.invalid_before)
    (hformed.explained.later h.retains (fun hopen => ?opens) fun hrole hop t =>
      h.underlying?_of_ne he hname hobj hrole hop)
  case opens => rwa [Open, h.progress?_of_ne hspec] at hopen

theorem formed {e : Entry} (he : e.Fits file) (hobj : last.objects.get? e.name = some obj) :
    last.Formed file start e obj := by
  rw [h.objects_eq] at hobj
  by_cases heq : e.name = entry.name
  · obtain rfl := he.eq_of_name h.sane.forest h.fits heq
    obtain ⟨own, hown, ⟨hsome, hnow⟩ | ⟨hnone, hnow⟩⟩ := h.means.object
    · cases hnow.symm.trans hobj
      exact h.formed_bound hown hsome
    · cases hnow.symm.trans hobj
      exact h.formed_taken hown hnone
  · exact h.formed_of_ne he heq ((h.means.get?_eq heq).symm.trans hobj)

theorem sane_after : last.Sane file start := by
  refine h.sane.carry h.orderly h.steady h.retains (fun d hd => ?fair) (fun id hid => ?present)
    (fun id obj' hobj' _ => ?owned) fun e he obj' hobj' => h.formed he hobj'
  case fair =>
    rw [h.faults_eq] at hd
    obtain hd | hd := Array.mem_append.1 hd
    · exact (h.sane.fair d hd).later h.steady.reaches
    · exact (h.fair d (Option.mem_toList.1 (List.mem_toArray.1 hd))).later h.steady.reaches
  case present =>
    obtain ⟨obj, hobj⟩ := Option.isSome_iff_exists.1 hid
    obtain ⟨obj', hobj', -⟩ := h.means.gains hobj
    rw [h.objects_eq, hobj']
    rfl
  case owned =>
    rw [h.objects_eq] at hobj'
    exact h.means.role_before hobj'

end Concludes

namespace Sane

/-- Ending a type declaration that has got its meaning, which is invalid for a reason. -/
theorem means (h : pkg.Sane file start) (hentry : entry.Fits file) (hrole : entry.role = .type)
    (hresolving : pkg.progress? entry.spec = some .resolving) (hmeans : Means entry meaning pkg pkg')
    (hrooted : pkg.Rooted file meaning)
    (hsignifies : meaning ≠ TypeTable.invalid →
      ∃ y, file.tree.part? entry.spec 1 = some y ∧ Signifies file start pkg y meaning)
    {fault : Option (Diagnostic SemanticFault)}
    (hfault : ∀ d, fault = some d → d.cause.Fair start pkg.types)
    (hvalid : fault = none → pkg.types.isInvalid meaning = true → pkg.Flawed file) :
    ((pkg'.setProgress entry.spec .done).recorded fault).Sane file start ∧
      Retains file pkg ((pkg'.setProgress entry.spec .done).recorded fault) := by
  have hends : Concludes file start entry meaning fault pkg pkg' ((pkg'.setProgress entry.spec .done).recorded fault) :=
    { sane := h
      fits := hentry
      role_eq := hrole
      resolving := hresolving
      means := hmeans
      rooted := hrooted
      signifies := hsignifies
      fair := hfault
      valid := hvalid
      last_eq := rfl }
  exact ⟨hends.sane_after, hends.retains⟩

/-- Adding a method, when no type is awaited. -/
theorem method (h : pkg.Sane file start) {types : TypeTable} {decl name : NodeId}
    (hdecl : decl ∈ file.decls) (hmethod : isMethod file.tree decl = true) (hname : file.tree.part? decl 1 = some name)
    (hended : ∀ entry, ¬ pkg.Awaits file entry) (hreaches : Reaches pkg.types types)
    (hunderlying : ∀ t, pkg.types.Knows t → types.underlying? t = pkg.types.underlying? t)
    (hknown : ∀ t, obj.typ = some t → types.Knows t) (hrole : obj.role = .function) :
    ({ pkg with types, objects := pkg.objects.insert name obj } : Package).Sane file start ∧
      Retains file pkg { pkg with types, objects := pkg.objects.insert name obj } := by
  have hsteady : Steady pkg { pkg with types, objects := pkg.objects.insert name obj } := ⟨rfl, rfl, rfl, rfl, hreaches⟩
  have hsame (e : Entry) (he : e.Fits file) : (pkg.objects.insert name obj).get? e.name = pkg.objects.get? e.name :=
    NodeMap.get?_insert_of_ne _ _ (he.name_ne h.forest hdecl hmethod hname)
  have hretains : Retains file pkg { pkg with types, objects := pkg.objects.insert name obj } :=
    retains h.toOrderly hsteady (fun e he o ho => ⟨o, (hsame e he).trans ho, .refl o⟩) fun hflawed => hflawed
  refine ⟨h.keep (h.toOrderly.method hended hreaches hknown) hsteady hretains
    (fun d hd => (h.fair d hd).later hreaches) (fun id hid => ?present) (fun id o ho howned => ?owned)
    (fun _ hspec => hspec) (fun _ hspec => hspec) (fun e he => absurd he (hended e)) hunderlying
    fun e he o ho => .inr ⟨(hsame e he).symm.trans ho, .inl⟩, hretains⟩
  case present =>
    show ((pkg.objects.insert name obj).get? id).isSome
    by_cases heq : id = name
    · rw [heq, NodeMap.get?_insert_self]
      rfl
    · rwa [NodeMap.get?_insert_of_ne _ _ heq]
  case owned =>
    have ho : (pkg.objects.insert name obj).get? id = some o := ho
    by_cases heq : id = name
    · rw [heq, NodeMap.get?_insert_self] at ho
      cases ho
      rw [hrole] at howned
      simp at howned
    · rw [NodeMap.get?_insert_of_ne _ _ heq] at ho
      exact ⟨o, ho, rfl⟩

end Sane

end Package

end GoSource
