import GoSource.Proofs.Package.Grounds
import GoSource.Proofs.Package.Order
import GoSource.Proofs.Package.Sanity
import GoSource.Proofs.Typing.Founded

/-!
# What does not depend on the order

Whether a name is found to mean something can depend on the order of the declarations, and on what was resolved before.
What it means does not: it is what the file says.

* **`Package.Counterparts`**: types of two packages that have a sense in common.
* **`Package.Sane.spell_eq`**, **`Package.Sane.kind_eq`**, **`Package.Sane.handle_eq`**: what they have in common
  besides.
* **`meanings_by_order`**: two orders agree on all names that they find a meaning for.
* **`recursion_by_order`**: they need not find the same faults.
-/

namespace GoSource

open TypeTable

variable {file : ParsedFile} {start : TypeTable} {pkg pkg' : Package} {entry : Entry} {obj obj' : Object}
  {t t' u u' : TypeId} {S : Sense}

/-- What is related to the same things is so related. -/
theorem forall₂_common {α β γ : Type} {R : α → γ → Prop} {R' : β → γ → Prop} {xs : List α} {ys : List β} {zs : List γ}
    (h : List.Forall₂ R xs zs) (h' : List.Forall₂ R' ys zs) : List.Forall₂ (fun x y => ∃ z, R x z ∧ R' y z) xs ys := by
  induction h generalizing ys with
  | nil =>
      cases h'
      exact .nil
  | cons hfirst _ ih =>
      cases h' with
      | cons hfirst' hrest' => exact .cons ⟨_, hfirst, hfirst'⟩ (ih hrest')

namespace Package

/-! ### Types with a sense in common -/

/-- Types of two packages that stand for the same. -/
def Counterparts (file : ParsedFile) (start : TypeTable) (pkg pkg' : Package) (t t' : TypeId) : Prop :=
  ∃ S, pkg.Stands file start t S ∧ pkg'.Stands file start t' S

namespace Sane

/-- A built type stands for what its parts do. -/
theorem parts_of_built (h : pkg.Sane file start) (hbuilt : (pkg.types.shape t).isDeclared = false)
    (hS : pkg.Stands file start t S) :
    ∃ parts, S = .built (pkg.types.shape t).form parts ∧
      List.Forall₂ (pkg.Stands file start) (pkg.types.shape t).components parts := by
  cases hS with
  | declared ht =>
      obtain ⟨-, _, _, hs⟩ := h.coined ht
      rw [hs] at hbuilt
      cases hbuilt
  | given ht =>
      obtain ⟨-, _, _, _, _, _, _, -, hs⟩ := h.toStartsFrom.given ht
      rw [hs] at hbuilt
      cases hbuilt
  | built hs _ _ _ hparts hD =>
      subst hs
      exact ⟨_, rfl, hparts.imp hD⟩

/-- What a valid type stands for is of its kind, and not the invalid type. -/
theorem meaning_of_valid (h : pkg.Sane file start) (hvalid : pkg.types.isInvalid t = false)
    (hu : pkg.types.underlying? t = some u) :
    pkg.types.kind t = (pkg.types.shape u).kind ∧ u ≠ TypeTable.invalid := by
  have hkind : pkg.types.kind t = (pkg.types.shape u).kind := by
    rw [h.sound.kind_eq_underlying, underlyingShape?, hu]
    rfl
  refine ⟨hkind, ?_⟩
  rintro rfl
  rw [isInvalid, hkind, hu, h.regular.shape_invalid] at hvalid
  cases hvalid

section

variable (h : pkg.Sane file start) (h' : pkg'.Sane file start) (hsame : pkg'.setting start = pkg.setting start)
include h h' hsame

/-- Types with a sense in common are built alike. -/
theorem likens : Likens (Counterparts file start pkg pkg') pkg.types pkg'.types := by
  have hpath : pkg'.path = pkg.path := congrArg (fun c => c.ground.path) hsame
  refine ⟨h.sound.ordered, h'.sound.ordered, ?_, ?_⟩
  · rintro t t' ⟨S, hS, hS'⟩
    cases hS with
    | declared ht =>
        obtain ⟨-, _, _, hs⟩ := h.coined ht
        cases hS' with
        | declared ht' =>
            obtain ⟨-, _, _, hs'⟩ := h'.coined ht'
            rw [hs, hs', hpath]
            exact .named _ _ _ _ _ _
    | given ht =>
        obtain ⟨-, _, _, _, _, _, _, hstart, hs⟩ := h.toStartsFrom.given ht
        cases hS' with
        | given ht' =>
            obtain ⟨-, _, _, _, _, _, _, hstart', hs'⟩ := h'.toStartsFrom.given ht'
            cases hstart.symm.trans hstart'
            rw [hs, hs']
            exact .named _ _ _ _ _ _
    | @built _ _ s parts hs hbuilt _ _ hparts hD =>
        generalize hform : s.form = form at hS'
        cases hS' with
        | built hs' _ _ _ hparts' hD' =>
            subst hs hs'
            refine Shape.corresponds_of_form hbuilt hform ?_
            exact forall₂_common (hparts.imp hD) (hparts'.imp hD')
  · rintro t t' ⟨S, hS, -⟩
    cases hS with
    | declared ht =>
        obtain ⟨-, _, _, hs⟩ := h.coined ht
        rw [hs]
        nofun
    | given ht =>
        obtain ⟨-, _, _, _, _, _, _, -, hs⟩ := h.toStartsFrom.given ht
        rw [hs]
        nofun
    | built hs _ _ hspreads =>
        rw [hs]
        exact hspreads

theorem spell_eq (ht : Counterparts file start pkg pkg' t t') : pkg'.types.spell t' = pkg.types.spell t :=
  ((h.likens h' hsame).spell_eq ht).symm

/-- Types with a sense in common stand for types with a sense in common. -/
theorem counterparts_underlying (hforest : file.tree.Forest) (ht : Counterparts file start pkg pkg' t t')
    (hu : pkg.types.underlying? t = some u) (hu' : pkg'.types.underlying? t' = some u')
    (hvalid : u ≠ TypeTable.invalid) (hvalid' : u' ≠ TypeTable.invalid) :
    Counterparts file start pkg pkg' u u' := by
  obtain ⟨S, hS, hS'⟩ := ht
  obtain ⟨U, hU, hstands⟩ := h.underlies hS hu hvalid
  obtain ⟨U', hU', hstands'⟩ := h'.underlies hS' hu' hvalid'
  rw [hsame] at hU'
  rw [hU'.unique (fun _ _ _ hS hT => hS.unique hforest hT) hU] at hstands'
  exact ⟨U, hstands, hstands'⟩

/-- Types that stand for something have the same kind. -/
theorem kind_eq (hforest : file.tree.Forest) (ht : Counterparts file start pkg pkg' t t')
    (hbound : (pkg.types.underlying? t).isSome) (hbound' : (pkg'.types.underlying? t').isSome)
    (hvalid : pkg.types.isInvalid t = false) (hvalid' : pkg'.types.isInvalid t' = false) :
    pkg'.types.kind t' = pkg.types.kind t := by
  obtain ⟨u, hu⟩ := Option.isSome_iff_exists.1 hbound
  obtain ⟨u', hu'⟩ := Option.isSome_iff_exists.1 hbound'
  obtain ⟨hkind, hmeant⟩ := h.meaning_of_valid hvalid hu
  obtain ⟨hkind', hmeant'⟩ := h'.meaning_of_valid hvalid' hu'
  have hmeanings := h.counterparts_underlying h' hsame hforest ht hu hu' hmeant hmeant'
  rw [hkind, hkind']
  exact ((h.likens h' hsame).corresponds u u' hmeanings).kind_eq

/-- The types that a name has in both packages have a sense in common: it is what the file says of the name. -/
theorem counterparts (hforest : file.tree.Forest) (hfits : entry.Fits file)
    (hobj : pkg.objects.get? entry.name = some obj) (hobj' : pkg'.objects.get? entry.name = some obj')
    (ht : obj.typ = some t) (ht' : obj'.typ = some t') (hvalid : t ≠ TypeTable.invalid)
    (hvalid' : t' ≠ TypeTable.invalid) : Counterparts file start pkg pkg' t t' := by
  obtain ⟨S, hS, hstands⟩ := (h.formed entry hfits obj hobj).explained.sense t ht hvalid
  obtain ⟨S', hS', hstands'⟩ := (h'.formed entry hfits obj' hobj').explained.sense t' ht' hvalid'
  rw [hsame] at hS'
  rw [hS'.unique hforest hS] at hstands'
  exact ⟨S, hstands, hstands'⟩

/-- A constant has one value: the literal is what the file says, and the kind is that of its type. -/
theorem value_eq (hforest : file.tree.Forest) (hfits : entry.Fits file)
    (hobj : pkg.objects.get? entry.name = some obj) (hobj' : pkg'.objects.get? entry.name = some obj')
    (hrole : entry.role = .constant) (ht : obj.typ = some t) (ht' : obj'.typ = some t')
    (hvalid : pkg.types.isInvalid t = false) (hvalid' : pkg'.types.isInvalid t' = false) {v v' : ConstValue}
    (hv : obj.value = some v) (hv' : obj'.value = some v') : v' = v := by
  have hformed := h.formed entry hfits obj hobj
  have hformed' := h'.formed entry hfits obj' hobj'
  have hsuit := (hformed.constant hrole).suits ht hv
  have hsuit' := (hformed'.constant hrole).suits ht' hv'
  have hliteral : v'.literal = v.literal := by
    obtain ⟨x, hx, hstates⟩ := hformed.explained.value v hv
    obtain ⟨x', hx', hstates'⟩ := hformed'.explained.value v' hv'
    cases hx.unique hforest hx'
    rw [hsame] at hstates'
    exact hstates'.unique hforest hstates
  have hkind : v'.kind = v.kind := by
    have hcounterparts := h.counterparts h' hsame hforest hfits hobj hobj' ht ht' (h.ne_invalid_of_valid hvalid)
      (h'.ne_invalid_of_valid hvalid')
    rw [hsuit.kind_eq, hsuit'.kind_eq]
    exact h.kind_eq h' hsame hforest hcounterparts hsuit.bound hsuit'.bound hvalid hvalid'
  cases v
  cases v'
  simp_all

omit hsame in
/-- Types that are made of predeclared types have one handle in a table and in those that have come from it. -/
theorem handle_eq (hext : Extends pkg.types pkg'.types) (hfounded : pkg.types.Founded (pkg.setting start).Gives t)
    (ht : Counterparts file start pkg pkg' t t') : t' = t := by
  induction hfounded generalizing t' with
  | given hgiven =>
      obtain ⟨hknown, _, _, _, _, _, _, -, hs⟩ := h.toStartsFrom.given hgiven
      obtain ⟨S, hS, hS'⟩ := ht
      cases hS with
      | declared hcoins => exact absurd hknown (h.coined hcoins).1
      | given =>
          cases hS'
          rfl
      | built hs' hbuilt =>
          rw [← hs', hs] at hbuilt
          cases hbuilt
  | @built t hbuilt hvalid _ ih =>
      obtain ⟨S, hS, hS'⟩ := ht
      obtain ⟨parts, rfl, hparts⟩ := h.parts_of_built hbuilt hS
      generalize hform : (pkg.types.shape t).form = form at hS'
      cases hS' with
      | built hs' _ _ _ hparts' hD' =>
          subst hs'
          have hcommon := forall₂_common hparts (hparts'.imp hD')
          have hcomponents : (pkg.types.shape t).components.map id = (pkg'.types.shape t').components.map id :=
            map_eq_of_forall₂ hcommon fun x hx x' _ hx' => (ih x hx hx').symm
          rw [List.map_id, List.map_id] at hcomponents
          have hs := Shape.eq_of_form hbuilt hform hcomponents
          have hlater := hext.shape_of_built rfl hbuilt hvalid
          refine h'.sound.unique (knows_of_shape_ne ?_) (knows_of_shape_ne ?_) ?_ ?_
          · rw [← hs]
            exact hvalid
          · rw [hlater]
            exact hvalid
          · rw [← hs]
            exact hbuilt
          · rw [hlater, hs]

end

end Sane

/-- A type that is made of predeclared types: of basic types, and of declared types that need no declaration. -/
def MadeOfPredeclared (pkg : Package) (tt : TypeTable) (t : TypeId) : Prop :=
  tt.Founded (pkg.setting pkg.types).Gives t

end Package

/-! ### Another order -/

variable {decls decls' : List NodeId} {first second : Package}

/-- Where the names are the same, they are looked up in the same. -/
theorem setting_by_order (houter : pkg'.outer = pkg.outer)
    (hdecls : ∀ decl ∈ decls, decl ∈ file.decls) (horder : Package.Rearranged file.tree decls decls')
    (honce : Package.DeclaredOnce file decls) (hfirst : Steady (pkg.collected file decls) first)
    (hsecond : Steady (pkg'.collected file decls') second) : second.setting start = first.setting start := by
  have hdecls' : ∀ decl ∈ decls', decl ∈ file.decls := fun decl hdecl => hdecls decl (horder.perm.mem_iff.2 hdecl)
  obtain ⟨houter₁, hpath₁, -⟩ := pkg.collected_reaches hdecls
  obtain ⟨houter₂, hpath₂, -⟩ := pkg'.collected_reaches hdecls'
  have hnames : second.declared? = first.declared? := by
    funext name
    rw [Package.declared?, Package.declared?, hfirst.scope_eq, hsecond.scope_eq]
    exact (names_by_order horder honce name).symm
  rw [Package.setting, Package.setting, hnames, hfirst.outer_eq, hsecond.outer_eq, hfirst.path_eq, hsecond.path_eq,
    houter₁, houter₂, houter, hpath₁, hpath₂, horder.pathOf_eq]

/-- Two orders agree on what they find out about a name.  It is declared alike and plays the same role.  If it has a
type in both, that is spelled alike, and if it is made of predeclared types and the one resolution goes on in the table
of the other, it is the same type.  If it has a value of a valid type in both, that is the same. -/
theorem meanings_by_order (hpkg : pkg.Session) (hpkg' : pkg'.Session) (hfile : file.Parsed)
    (houter : pkg'.outer = pkg.outer) (hreaches : Reaches pkg.types pkg'.types)
    (hdecls : ∀ decl ∈ decls, decl ∈ file.decls) (horder : Package.Rearranged file.tree decls decls')
    (honce : Package.DeclaredOnce file decls) (hok : pkg.resolveDecls file decls = (.ok (), first))
    (hok' : pkg'.resolveDecls file decls' = (.ok (), second)) (name : String) :
    second.declared? name = first.declared? name ∧
      ∀ entry, first.declared? name = some entry → ∃ obj obj', first.lookup name = some obj ∧
        second.lookup name = some obj' ∧ obj'.role = obj.role ∧
          ∀ t t', obj.typ = some t → obj'.typ = some t' → t ≠ TypeTable.invalid → t' ≠ TypeTable.invalid →
            second.types.spell t' = first.types.spell t ∧
              (Reaches first.types pkg'.types → pkg.MadeOfPredeclared first.types t → t' = t) ∧
              (obj.role = .constant → first.types.isInvalid t = false → second.types.isInvalid t' = false →
                ∀ v v', obj.value = some v → obj'.value = some v' → v' = v) := by
  have hdecls' : ∀ decl ∈ decls', decl ∈ file.decls := fun decl hdecl => hdecls decl (horder.perm.mem_iff.2 hdecl)
  have hout := resolveDecls_sane hpkg hpkg.startsFrom hfile hdecls
  have hout' := resolveDecls_sane hpkg' (hpkg.startsFrom_of_reaches houter hreaches) hfile hdecls'
  rw [hok] at hout
  rw [hok'] at hout'
  obtain ⟨hsane, honto, -⟩ := hout
  obtain ⟨hsane', honto', -⟩ := hout'
  obtain ⟨houter₁, -⟩ := pkg.collected_reaches hdecls
  obtain ⟨-, -, hcollected⟩ := pkg'.collected_reaches hdecls'
  have hsame : second.setting pkg.types = first.setting pkg.types :=
    setting_by_order houter hdecls horder honce honto.onward.steady honto'.onward.steady
  have hnames : second.declared? name = first.declared? name := congrArg (fun c => c.names name) hsame
  refine ⟨hnames, fun entry hentry => ?_⟩
  obtain ⟨obj, hobj⟩ := Option.isSome_iff_exists.1 (hsane.present name entry hentry)
  obtain ⟨obj', hobj'⟩ := Option.isSome_iff_exists.1 (hsane'.present name entry (hnames.trans hentry))
  have hfits := hsane.toOrderly.declared name entry hentry
  have hformed := hsane.formed entry hfits obj hobj
  have hformed' := hsane'.formed entry hfits obj' hobj'
  refine ⟨obj, obj', by rw [Package.lookup, hentry]; exact hobj, by rw [Package.lookup, hnames, hentry]; exact hobj',
    hformed'.role_eq.trans hformed.role_eq.symm, fun t t' ht ht' hvalid hvalid' => ?_⟩
  have hcounterparts := hsane.counterparts hsane' hsame hfile.forest hfits hobj hobj' ht ht' hvalid hvalid'
  refine ⟨hsane.spell_eq hsane' hsame hcounterparts, fun hlater hfounded => ?_,
    fun hrole hgood hgood' v v' hv hv' => ?_⟩
  · have hreaches' : Reaches first.types second.types :=
      hlater.trans (hcollected.trans honto'.onward.steady.reaches)
    have hgives : (first.setting pkg.types).Gives = (pkg.setting pkg.types).Gives := by
      funext t
      rw [Package.setting, Package.setting, honto.onward.steady.outer_eq, houter₁]
      rfl
    rw [Package.MadeOfPredeclared, ← hgives] at hfounded
    exact hsane.handle_eq hsane' (hreaches'.grows hsane.sound).toExtends hfounded hcounterparts
  · exact hsane.value_eq hsane' hsame hfile.forest hfits hobj hobj' (hformed.role_eq.symm.trans hrole) ht ht' hgood
      hgood' hv hv'

/-- Two orders, one after the other in one table: `A` gets two handles there, and `x` gets one. -/
theorem meanings_by_order_reversed :
    let file := ParsedFile.ofString "a.go" "package p\ntype A []B\ntype B int\nvar x []int\n"
    let pkg := Package.new (TypeTable.new .amd64)
    let first := (pkg.resolveDecls file file.decls).2
    let second := (first.resolveDecls file [⟨1⟩, ⟨16⟩, ⟨10⟩, ⟨6⟩]).2
    (∃ t t', (first.lookup "A").bind Object.typ = some t ∧ (second.lookup "A").bind Object.typ = some t' ∧
        t ≠ t' ∧ second.types.spell t' = first.types.spell t) ∧
      ∃ t t', (first.lookup "x").bind Object.typ = some t ∧ (second.lookup "x").bind Object.typ = some t' ∧
        second.types.spell t' = first.types.spell t ∧ t' = t := by
  intro file pkg first second
  have hfile : file.Parsed := ParsedFile.parsed_ofString _ _
  have hdecls : ∀ decl ∈ file.decls, decl ∈ file.decls := fun _ h => h
  have hwritten : file.decls = [⟨1⟩, ⟨6⟩, ⟨10⟩, ⟨16⟩] ∧ Package.DeclaredOnce file file.decls ∧
      file.decls.filter (!Package.isMovable file.tree ·) =
        [⟨1⟩, ⟨16⟩, ⟨10⟩, ⟨6⟩].filter (!Package.isMovable file.tree ·) := by
    decide +kernel
  obtain ⟨hwritten, honce, hfixed⟩ := hwritten
  have horder : Package.Rearranged file.tree file.decls [⟨1⟩, ⟨16⟩, ⟨10⟩, ⟨6⟩] := by
    refine ⟨?_, hfixed⟩
    rw [hwritten]
    decide
  have hrun {pkg : Package} {decls : List NodeId} (h : (pkg.resolveDecls file decls).1.toBool = true) :
      pkg.resolveDecls file decls = (.ok (), (pkg.resolveDecls file decls).2) := by
    refine Prod.ext ?_ rfl
    cases hresult : (pkg.resolveDecls file decls).1 with
    | ok => rfl
    | error failure =>
        rw [hresult] at h
        cases h
  have hpkg : pkg.Session := .new ⟨.amd64, .refl⟩
  have hpkg' : first.Session := .resolved hpkg hfile hdecls
  obtain ⟨houter, hreaches⟩ := resolveDecls_reaches hpkg hfile hdecls
  have hfacts : ((pkg.resolveDecls file file.decls).1.toBool = true ∧
        (first.resolveDecls file [⟨1⟩, ⟨16⟩, ⟨10⟩, ⟨6⟩]).1.toBool = true) ∧
      ((first.lookup "A").bind Object.typ = some ⟨45⟩ ∧ (second.lookup "A").bind Object.typ = some ⟨50⟩ ∧
        (first.declared? "A").isSome) ∧
      ((first.lookup "x").bind Object.typ = some ⟨48⟩ ∧ (second.lookup "x").bind Object.typ = some ⟨48⟩ ∧
        (first.declared? "x").isSome) ∧
      first.types.shape ⟨48⟩ = .slice (basic .int) ∧ first.types.shape (basic .int) = .basic .int := by
    decide +kernel
  obtain ⟨⟨hok, hok'⟩, ⟨htyp, htyp', hname⟩, ⟨hxtyp, hxtyp', hx⟩, hslice, hint⟩ := hfacts
  have hagree := meanings_by_order hpkg hpkg' hfile houter hreaches hdecls horder honce (hrun hok) (hrun hok')
  refine ⟨⟨⟨45⟩, ⟨50⟩, htyp, htyp', by decide, ?_⟩, ⟨48⟩, ⟨48⟩, hxtyp, hxtyp', ?_⟩
  · obtain ⟨entry, hentry⟩ := Option.isSome_iff_exists.1 hname
    obtain ⟨obj, obj', hobj, hobj', -, htypes⟩ := (hagree "A").2 entry hentry
    rw [hobj, Option.bind_some] at htyp
    rw [hobj', Option.bind_some] at htyp'
    exact (htypes _ _ htyp htyp' nofun nofun).1
  · obtain ⟨entry, hentry⟩ := Option.isSome_iff_exists.1 hx
    obtain ⟨obj, obj', hobj, hobj', -, htypes⟩ := (hagree "x").2 entry hentry
    rw [hobj, Option.bind_some] at hxtyp
    rw [hobj', Option.bind_some] at hxtyp'
    obtain ⟨hspell, hhandle, -⟩ := htypes _ _ hxtyp hxtyp' nofun nofun
    refine ⟨hspell, hhandle .refl (.built (by rw [hslice]; rfl) (by rw [hslice]; nofun) fun part hpart => ?_)⟩
    rw [hslice] at hpart
    cases List.mem_singleton.1 hpart
    refine .built (by rw [hint]; rfl) (by rw [hint]; nofun) fun part hpart => ?_
    rw [hint] at hpart
    cases hpart

/-- A type that stands for a later one is found to be recursive only if the later one comes first. -/
theorem recursion_by_order :
    let file := ParsedFile.ofString "a.go" "package p\ntype A B\ntype B []A\n"
    let pkg := Package.new (TypeTable.new .amd64)
    file.diagnostics = [] ∧ Package.DeclaredOnce file file.decls ∧
      ∃ decls, Package.Rearranged file.tree file.decls decls ∧
        (pkg.resolveDecls file file.decls).2.faults.map (·.cause.message) = #[] ∧
        (pkg.resolveDecls file decls).2.faults.map (·.cause.message) = #["invalid recursive type A"] := by
  intro file pkg
  have hfile : file.diagnostics = [] ∧ Package.DeclaredOnce file file.decls ∧ file.decls = [⟨1⟩, ⟨5⟩, ⟨10⟩] := by
    decide +kernel
  refine ⟨hfile.1, hfile.2.1, [⟨1⟩, ⟨10⟩, ⟨5⟩], ⟨?_, ?_⟩, ?_⟩
  · rw [hfile.2.2]
    decide
  · rw [hfile.2.2]
    decide +kernel
  · rw [hfile.2.2]
    decide +kernel

end GoSource
