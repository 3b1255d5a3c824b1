import GoSource.Proofs.Package.Keeping

/-!
# Resolution without recursion

In a layered file no rule of resolution finds a type to be recursive: a declaration that it meets again is one that the
node at hand refers to and that refers to the node, and there is no need to know its type in full.

* **`Meanings.Careful`**: the questions through which declarations refer to one another, in tame packages.
* One lemma for each rule of types and values: **`Meanings.typeExpr_keeps`**, **`Meanings.constantExpr_keeps`** and
  **`Meanings.valueExpr_keeps`** put them together.
-/

namespace GoSource

open TypeTable

/-- What a type expression denotes: only a name may denote a type that stands for nothing yet. -/
structure Meant (file : ParsedFile) (owns : NodeId → TypeId → Prop) (id : NodeId) (t : TypeId) (pkg : Package) :
    Prop extends Seen file owns id t pkg where
  bound : ¬ file.IsName id → (pkg.types.underlying? t).isSome

/-- The meanings of nodes and declarations that are asked for on the way from what is under way. -/
structure Meanings.Careful (file : ParsedFile) (owns : NodeId → TypeId → Prop) (m : Meanings) : Prop where
  type : ∀ id, Keeps file owns (·.Leads file id) (m.type id) (Meant file owns id)
  constant : ∀ id, Keeps file owns (·.Leads file id) (m.constant id) fun x pkg => pkg.types.Knows x.2
  value : ∀ id, Keeps file owns (·.Leads file id) (m.value id) KnownIfSome
  declaration : ∀ entry : Entry, entry.Fits file →
    Keeps file owns (·.Leads file entry.spec) (m.declaration entry) fun _ pkg =>
      pkg.progress? entry.spec ≠ some .pending

/-- What a name stands for: a type is traced to the name. -/
def Identified (file : ParsedFile) (owns : NodeId → TypeId → Prop) (id : NodeId) (obj : Object) (pkg : Package) :
    Prop :=
  KnownIfSome obj.typ pkg ∧ (obj.role = .type → ∃ t, obj.typ = some t ∧ pkg.Traced file owns id t)

/-- A type that was built, if any was. -/
def MadeIfSome (file : ParsedFile) (owns : NodeId → TypeId → Prop) (x : NodeId) (o : Option TypeId) (pkg : Package) :
    Prop :=
  ∀ t, o = some t → Made file owns x t pkg

/-- The types of a member of an interface. -/
def Meanings.Member.Usable (file : ParsedFile) (owns : NodeId → TypeId → Prop) (x : NodeId) (pkg : Package) :
    Meanings.Member → Prop
  | .method f => GoSource.Usable file owns x f.typ pkg
  | .embedded t => GoSource.Usable file owns x t pkg

variable {file : ParsedFile} {owns : NodeId → TypeId → Prop} {id x : NodeId} {P : Package → Prop}

theorem madeIfSome_none (pkg : Package) : MadeIfSome file owns x none pkg :=
  fun _ h => by cases h

theorem madeIfSome_some {t : TypeId} {pkg : Package} (h : Made file owns x t pkg) :
    MadeIfSome file owns x (some t) pkg := by
  rintro u ⟨⟩
  exact h

theorem stable_member (x : NodeId) (member : Meanings.Member) :
    Stable file owns fun pkg => member.Usable file owns x pkg := by
  cases member with
  | method f => exact stable_usable x f.typ
  | embedded t => exact stable_usable x t

theorem Package.Tame.meant_invalid {pkg : Package} (h : pkg.Tame file owns) (id : NodeId) :
    Meant file owns id TypeTable.invalid pkg := by
  have hbuilt : (pkg.types.shape TypeTable.invalid).isDeclared = false := by
    rw [h.regular.shape_invalid]
    rfl
  refine ⟨⟨h.regular.knows_invalid, .of_parts hbuilt fun part hpart => ?_⟩, fun _ => ?_⟩
  · rw [h.regular.shape_invalid] at hpart
    cases hpart
  · rw [underlying?_of_built hbuilt]
    rfl

/-- The type that brings methods into an interface stands for an interface with these methods. -/
theorem underlying_of_embedded {tt : TypeTable} {t : TypeId} {ms : List Method} (h : tt.embeddedMethods t = .ok ms) :
    ∃ u, tt.underlying? t = some u ∧ tt.shape u = .interface ms := by
  rw [embeddedMethods] at h
  split at h
  · cases h
  · next hs =>
      cases h
      rw [underlyingShape?, Option.map_eq_some_iff] at hs
      exact hs
  · cases h

/-! ### References of type expressions -/

theorem refers_entry {entry : Entry} (hop : file.tree.op id = .lit .ident)
    (hentry : file.entry? (file.tree.literal id) = some entry) : file.Refers id entry.spec := by
  refine ParsedFile.refers_of_mentioned ?_
  simp only [ParsedFile.mentioned, hop, hentry]
  simp

/-- The node is of a kind that refers to all its parts. -/
def IsCompound (file : ParsedFile) (id : NodeId) : Prop :=
  file.mentioned id = file.tree.present id

theorem IsCompound.refers {c : NodeId} {place : Nat} (h : IsCompound file id) (hc : file.tree.part? id place = some c) :
    file.Refers id c := by
  refine ParsedFile.refers_of_mentioned ?_
  rw [h]
  exact Tree.mem_present_of_part? hc

namespace Meanings

variable {m : Meanings} (hm : m.Careful file owns) (hlayered : file.Layered)

/-! ### Names -/

theorem predeclared_keeps (id : NodeId) (name : String) :
    Keeps file owns P
      (do
        match (← get).predeclared? name with
        | some obj => return obj
        | none => ResolveM.fail id (.undefined name))
      (Identified file owns id) := by
  refine .get fun q hq _ => ?_
  cases hfind : q.predeclared? name with
  | none => exact .fail rfl
  | some obj =>
      refine .pure ?_
      rintro pkg htame ⟨-, rfl⟩
      have hobj : obj ∈ pkg.outer := List.mem_of_find?_eq_some hfind
      refine ⟨htame.predeclared obj hobj, fun hrole => ?_⟩
      obtain ⟨t, ht, hclosed⟩ := htame.enclosed obj hobj hrole
      exact ⟨t, ht, fun c hc => .inl (hclosed c hc)⟩

include hm hlayered

theorem object_keeps (hop : file.tree.op id = .lit .ident) :
    Keeps file owns (·.Leads file id) (m.object id) (Identified file owns id) := by
  refine .tree (.check rfl fun _ => .get fun q hq _ => ?_)
  cases hentry : q.declared? (file.tree.literal id) with
  | none => exact predeclared_keeps id _
  | some entry =>
      have hfits := hq.declared _ entry hentry
      have hrefers : file.Refers id entry.spec := refers_entry hop ((hq.names _).symm.trans hentry)
      refine Keeps.pre (P := fun pkg => pkg.Leads file id) ?_ fun _ _ h => h.1
      refine ((hm.declaration entry hfits).pre fun _ _ h => h.step hrefers).bind (stable_leads id) fun _ => ?_
      refine .get fun q' _ _ => ?_
      cases hobj : q'.objects.get? entry.name with
      | none => exact predeclared_keeps id _
      | some obj =>
          refine .pure ?_
          rintro pkg htame ⟨⟨hlead, hprogress⟩, rfl⟩
          refine ⟨fun t ht => htame.known _ obj t hobj ht, fun hrole => ?_⟩
          have hrole : entry.role = .type := (htame.roles entry hfits obj hobj).symm.trans hrole
          exact htame.traced_entity hlayered hfits hrole hobj hprogress hlead hrefers

theorem typeName_keeps (hop : file.tree.op id = .lit .ident) :
    Keeps file owns (·.Leads file id) (m.typeName id) (Meant file owns id) := by
  refine (object_keeps hm hlayered hop).bind (stable_leads id) fun obj => .check rfl fun hrole => ?_
  have hrole : obj.role = .type := Decidable.of_not_not hrole
  cases htyp : obj.typ with
  | none =>
      rintro pkg - ⟨-, -, htype⟩
      obtain ⟨t, ht, -⟩ := htype hrole
      cases htyp.symm.trans ht
  | some t =>
      refine .pure ?_
      rintro pkg - ⟨-, hknown, htype⟩
      obtain ⟨t', ht', htraced⟩ := htype hrole
      cases htyp.symm.trans ht'
      exact ⟨⟨hknown t htyp, htraced⟩, fun hname => absurd (.inl hop) hname⟩

/-! ### Parts -/

/-- A part that is needed is ready. -/
theorem component_keeps (hcompound : IsCompound file id) (place : Nat) :
    Keeps file owns (·.Leads file id) (m.component id place) fun o pkg =>
      ∀ t, o = some t → Usable file owns id t pkg ∧ ∃ c, file.tree.part? id place = some c ∧
        (file.Needs id c → pkg.types.Knows t ∧ pkg.types.Ready t) := by
  refine .part fun c hc => ?_
  have hrefers := hcompound.refers hc
  refine ((hm.type c).pre fun _ _ h => h.step hrefers).bind (stable_leads id) fun t => .types fun tt => .pure ?_
  rintro pkg htame ⟨⟨hlead, hmeant⟩, rfl⟩ t' ht'
  cases hinvalid : pkg.types.isInvalid t with
  | true =>
      rw [hinvalid] at ht'
      cases ht'
  | false =>
      rw [hinvalid] at ht'
      cases ht'
      refine ⟨⟨hmeant.toSeen.refers hrefers, valid_of_not_isInvalid htame.tidy.toKinded hinvalid⟩, c, hc,
        fun hneeds => ?_⟩
      refine ⟨hmeant.knows, htame.ready hmeant.knows hmeant.traced hinvalid fun spec d howns hbegun hback => ?_⟩
      exact htame.bound_of_needs hlayered hneeds howns hbegun hback ((htame.held spec d howns).back hlead)

theorem usable_keeps (hcompound : IsCompound file id) (place : Nat) :
    Keeps file owns (·.Leads file id) (m.component id place) fun o pkg => ∀ t, o = some t → Usable file owns id t pkg :=
  (component_keeps hm hlayered hcompound place).mono fun _ _ _ h t ht => (h t ht).1

omit hm hlayered in
/-- A type built of types that can be used, which is never refused. -/
theorem build_keeps {s : Shape} (op : Operation) (hop : ∀ tt, op.run tt = (intern s tt).2)
    (hhandles : op.handles = s.components) (hbuilt : s.isDeclared = false) (hvalid : s ≠ .basic .invalid)
    (harray : ∀ e n, s ≠ .array e n)
    (hparts : ∀ pkg, P pkg → ∀ part ∈ s.components, Usable file owns x part pkg) :
    Keeps file owns P (ResolveM.build (intern s)) (Made file owns x) := by
  refine .build fun pkg htame hpkg => ?_
  refine htame.constructs op rfl (hop pkg.types) ?_ hbuilt hvalid harray (hparts pkg hpkg)
  rw [hhandles]
  exact fun t ht => (hparts pkg hpkg t ht).knows

theorem pointerType?_keeps (hcompound : IsCompound file id) :
    Keeps file owns (·.Leads file id) (m.pointerType? id) (MadeIfSome file owns id) := by
  refine (usable_keeps hm hlayered hcompound 0).bind (stable_leads id) fun o => ?_
  cases o with
  | none => exact .pure fun pkg _ _ => madeIfSome_none pkg
  | some elem =>
      refine (build_keeps (.pointer elem) (fun _ => rfl) rfl rfl (by simp) (by simp) ?_).map
        fun _ _ _ h => madeIfSome_some h
      rintro pkg ⟨-, h⟩
      simpa [Shape.components] using h elem rfl

theorem chanType?_keeps (dir : ChanDir) (hcompound : IsCompound file id) :
    Keeps file owns (·.Leads file id) (m.chanType? id dir) (MadeIfSome file owns id) := by
  refine (usable_keeps hm hlayered hcompound 0).bind (stable_leads id) fun o => ?_
  cases o with
  | none => exact .pure fun pkg _ _ => madeIfSome_none pkg
  | some elem =>
      refine (build_keeps (.chan elem dir) (fun _ => rfl) rfl rfl (by simp) (by simp) ?_).map
        fun _ _ _ h => madeIfSome_some h
      rintro pkg ⟨-, h⟩
      simpa [Shape.components] using h elem rfl

theorem mapType?_keeps (hcompound : IsCompound file id) :
    Keeps file owns (·.Leads file id) (m.mapType? id) (MadeIfSome file owns id) := by
  refine (usable_keeps hm hlayered hcompound 0).bind (stable_leads id) fun key? => ?_
  have hstable : Stable file owns fun pkg =>
      pkg.Leads file id ∧ ∀ t, key? = some t → Usable file owns id t pkg :=
    (stable_leads id).and (stable_forall fun t => (stable_usable id t).imp)
  refine ((usable_keeps hm hlayered hcompound 1).pre fun _ _ h => h.1).bind hstable fun elem? => ?_
  cases key? with
  | none => exact .pure fun pkg _ _ => madeIfSome_none pkg
  | some key =>
      cases elem? with
      | none => exact .pure fun pkg _ _ => madeIfSome_none pkg
      | some elem =>
          refine (build_keeps (.map key elem) (fun _ => rfl) rfl rfl (by simp) (by simp) ?_).map
            fun _ _ _ h => madeIfSome_some h
          rintro pkg ⟨⟨-, hkey⟩, helem⟩
          simpa [Shape.components] using ⟨hkey key rfl, helem elem rfl⟩

/-! ### Arrays -/

theorem lengthLiteral_keeps (id : NodeId) :
    Keeps file owns (·.Leads file id) (m.lengthLiteral id) fun _ _ => True := by
  refine .tree ?_
  split
  · exact .pure fun _ _ _ => trivial
  · exact .fail rfl
  · next hop =>
      refine (object_keeps hm hlayered hop).bind (stable_leads id) fun obj => ?_
      split
      · exact .ite (fun _ => .pure fun _ _ _ => trivial) fun _ => .fail rfl
      · exact .fail rfl
  · exact .fail rfl

theorem arrayLength_keeps (id : NodeId) :
    Keeps file owns (·.Leads file id) (m.arrayLength id) fun _ _ => True := by
  refine (lengthLiteral_keeps hm hlayered id).bind (stable_leads id) fun literal => ?_
  cases Literal.integerValue? literal with
  | none => exact .fail rfl
  | some n => exact .pure fun _ _ _ => trivial

omit hm hlayered in
/-- An array is made of an element that is ready, a slice of any element. -/
theorem buildArray_keeps (id : NodeId) (elem? : Option TypeId) (length? : Option Nat) :
    Keeps file owns
      (fun pkg => ∀ t, elem? = some t → Usable file owns id t pkg ∧
        (length?.isSome = true → pkg.types.Knows t ∧ pkg.types.Ready t))
      (match elem?, length? with
      | some elem, some length => some <$> ResolveM.buildAt id (TypeTable.newArray elem length)
      | some elem, none => some <$> ResolveM.build (TypeTable.newSlice elem)
      | none, _ => return none)
      (MadeIfSome file owns id) := by
  cases elem? with
  | none => exact .pure fun pkg _ _ => madeIfSome_none pkg
  | some elem =>
      cases length? with
      | none =>
          refine (build_keeps (.slice elem) (fun _ => rfl) rfl rfl (by simp) (by simp) ?_).map
            fun _ _ _ h => madeIfSome_some h
          intro pkg h
          simpa [Shape.components] using (h elem rfl).1
      | some length =>
          refine Keeps.map (Q := Made file owns id) (.buildAt fun pkg htame hpkg => ?_) fun _ _ _ h => madeIfSome_some h
          obtain ⟨husable, hready⟩ := hpkg elem rfl
          refine htame.interned (s := .array elem length) (.array elem length) rfl rfl ?_ rfl (by simp) ?_ ?_
          · simpa [Operation.handles] using husable.knows
          · simpa [Shape.components] using husable
          · exact htame.tidy.newArray husable.knows husable.valid (hready rfl).2 length

theorem arrayType?_keeps (hop : file.tree.op id = .tag .array) :
    Keeps file owns (·.Leads file id) (m.arrayType? id) (MadeIfSome file owns id) := by
  have hcompound : IsCompound file id := by simp only [IsCompound, ParsedFile.mentioned, hop]
  have helem : Keeps file owns (·.Leads file id) (m.component id 1) fun o pkg =>
      ∀ t, o = some t → Usable file owns id t pkg ∧
        ((file.tree.part? id 0).isSome = true → pkg.types.Knows t ∧ pkg.types.Ready t) := by
    refine (component_keeps hm hlayered hcompound 1).mono fun o pkg _ h t ht => ?_
    obtain ⟨husable, c, hc, hready⟩ := h t ht
    refine ⟨husable, fun hlength => hready (.inr ?_)⟩
    simp only [ParsedFile.inlined, hop, hlength, hc]
    simp
  refine helem.bind (stable_leads id) fun elem? => .tree ?_
  cases hpart : file.tree.part? id 0 with
  | none => exact (buildArray_keeps id elem? none).pre fun pkg _ h => h.2
  | some length =>
      -- What was found out about the element is not affected by looking for the length.
      have hstable : Stable file owns fun pkg => pkg.Leads file id ∧
          ∀ t, elem? = some t → Usable file owns id t pkg ∧
            ((some length).isSome = true → pkg.types.Knows t ∧ pkg.types.Ready t) :=
        (stable_leads id).and (stable_forall fun t => ((stable_usable id t).and (stable_ready t).imp).imp)
      have hlength : Keeps file owns (·.Leads file id) (some <$> m.arrayLength length) fun o _ => o.isSome = true := by
        refine Keeps.map (Q := fun _ _ => True) ?_ fun _ _ _ _ => rfl
        exact (arrayLength_keeps hm hlayered length).pre fun _ _ h => h.step (hcompound.refers hpart)
      refine (hlength.pre fun _ _ h => h.1).bind hstable fun length? => ?_
      exact (buildArray_keeps id elem? length?).pre fun pkg _ h t ht =>
        (h.1.2 t ht).imp_right fun hready _ => hready rfl

/-! ### Functions -/

omit hlayered in
/-- The types of a field are those that its list refers to. -/
theorem fieldTypes_keeps {list field : NodeId} (hlist : ∀ y ∈ file.fieldTypes list, file.Refers x y)
    (hfield : field ∈ file.tree.present list) (final : Bool) :
    Keeps file owns (·.Leads file x) (m.fieldTypes final field) fun r pkg => ∀ t ∈ r.1, Seen file owns x t pkg := by
  have hrefers {typ y : NodeId} (htyp : file.tree.part? field 1 = some typ)
      (hy : (if file.tree.op typ = .op .ellipsis then file.tree.part? typ 0 else some typ) = some y) :
      file.Refers x y :=
    hlist y (List.mem_filterMap.2 ⟨typ, List.mem_filterMap.2 ⟨field, hfield, htyp⟩, hy⟩)
  refine .tree (.part fun typ htyp => .ite (fun hop => .check rfl fun _ => ?_) fun hop => ?_)
  · refine .part fun elem helem => ?_
    have helem := hrefers htyp (by rw [if_pos hop]; exact helem)
    refine ((hm.type elem).pre fun _ _ h => h.step helem).bind (stable_leads x) fun t => .types fun tt => ?_
    refine .ite (fun _ => .pure ?_) fun hvalid => ?_
    · rintro pkg - ⟨⟨-, hmeant⟩, -⟩ u hu
      rw [List.mem_singleton.1 hu]
      exact hmeant.toSeen.refers helem
    · have hslice : Keeps file owns (fun pkg => (pkg.Leads file x ∧ Meant file owns elem t pkg) ∧ pkg.types = tt)
          (ResolveM.build (TypeTable.newSlice t)) (Made file owns x) := by
        refine .build fun pkg htame hpkg => ?_
        obtain ⟨⟨-, hmeant⟩, rfl⟩ := hpkg
        have husable : Usable file owns x t pkg :=
          ⟨hmeant.toSeen.refers helem, valid_of_not_isInvalid htame.tidy.toKinded (by simpa using hvalid)⟩
        refine htame.constructs (s := .slice t) (.slice t) rfl rfl ?_ rfl (by simp) (by simp) ?_
        · simpa [Operation.handles] using husable.knows
        · simpa [Shape.components] using husable
      refine hslice.map (f := fun u => ([u], true)) fun u pkg _ hu v hv => ?_
      rw [List.mem_singleton.1 hv]
      exact hu.1.toSeen
  · have htyp := hrefers htyp (by rw [if_neg hop])
    refine ((hm.type typ).pre fun _ _ h => h.step htyp).bind (stable_leads x) fun t => .pure ?_
    rintro pkg - ⟨-, hmeant⟩ u hu
    rw [List.eq_of_mem_replicate hu]
    exact hmeant.toSeen.refers htyp

omit hlayered in
theorem fieldListTypes_keeps {list : NodeId} (hlist : ∀ y ∈ file.fieldTypes list, file.Refers x y)
    (mayBeVariadic : Bool) (fields : List NodeId) (hfields : ∀ field ∈ fields, field ∈ file.tree.present list) :
    Keeps file owns (·.Leads file x) (m.fieldListTypes mayBeVariadic fields) fun r pkg =>
      ∀ t ∈ r.1, Seen file owns x t pkg := by
  induction fields with
  | nil => exact .pure fun _ _ _ t ht => absurd ht List.not_mem_nil
  | cons field rest ih =>
      have hrest := ih fun y hy => hfields y (List.mem_cons_of_mem _ hy)
      refine (fieldTypes_keeps hm hlist (hfields field List.mem_cons_self) _).bind (stable_leads x) fun first => ?_
      have hstable : Stable file owns fun pkg => pkg.Leads file x ∧ ∀ t ∈ first.1, Seen file owns x t pkg :=
        (stable_leads x).and (stable_forall fun t => (stable_seen x t).imp)
      refine (hrest.pre fun _ _ h => h.1).bind hstable fun others => .pure ?_
      rintro pkg - ⟨⟨-, hfirst⟩, hothers⟩ t ht
      exact (List.mem_append.1 ht).elim (hfirst t) (hothers t)

omit hlayered in
theorem signaturePart_keeps (hsignature : ∀ y ∈ file.signatureTypes id, file.Refers x y) (mayBeVariadic : Bool)
    {place : Nat} (hplace : place = 0 ∨ place = 1) :
    Keeps file owns (·.Leads file x) (m.signaturePart mayBeVariadic (file.tree.part? id place)) fun r pkg =>
      ∀ t ∈ r.1, Seen file owns x t pkg := by
  refine .tree ?_
  cases hpart : file.tree.part? id place with
  | none => exact .pure fun _ _ _ t ht => absurd ht List.not_mem_nil
  | some list =>
      have hlist : ∀ y ∈ file.fieldTypes list, file.Refers x y := by
        intro y hy
        refine hsignature y ?_
        rw [ParsedFile.signatureTypes, List.mem_append]
        obtain rfl | rfl := hplace
        · rw [hpart]
          exact .inl hy
        · rw [hpart]
          exact .inr hy
      exact fieldListTypes_keeps hm hlist mayBeVariadic _ fun field hfield => (List.mem_filter.1 hfield).1

omit hlayered in
theorem signature?_keeps (hsignature : ∀ y ∈ file.signatureTypes id, file.Refers x y) :
    Keeps file owns (·.Leads file x) (m.signature? id) (MadeIfSome file owns x) := by
  refine .tree ((signaturePart_keeps hm hsignature true (.inl rfl)).bind (stable_leads x) fun params => ?_)
  have hstable : Stable file owns fun pkg => pkg.Leads file x ∧ ∀ t ∈ params.1, Seen file owns x t pkg :=
    (stable_leads x).and (stable_forall fun t => (stable_seen x t).imp)
  refine ((signaturePart_keeps hm hsignature false (.inr rfl)).pre fun _ _ h => h.1).bind hstable fun results => ?_
  refine .types fun tt => .ite (fun _ => .pure fun pkg _ _ => madeIfSome_none pkg) fun hvalid => ?_
  refine Keeps.map (Q := Made file owns x) (.buildAt fun pkg htame hpkg => ?_) fun _ _ _ h => madeIfSome_some h
  obtain ⟨⟨⟨-, hparams⟩, hresults⟩, rfl⟩ := hpkg
  obtain ⟨-, -, hrun⟩ | ⟨-, hrun⟩ := newFunc_cases params.1 results.1 params.2 pkg.types
  · exact htame.refused hrun
  · have hparts : ∀ t ∈ params.1 ++ results.1, Usable file owns x t pkg := by
      intro t ht
      refine ⟨(List.mem_append.1 ht).elim (hparams t) (hresults t), ?_⟩
      refine valid_of_not_isInvalid htame.tidy.toKinded ?_
      by_contra hinvalid
      exact hvalid (List.any_eq_true.2 ⟨t, ht, by simpa using hinvalid⟩)
    exact htame.constructs (.func params.1 results.1 params.2) hrun rfl (fun t ht => (hparts t ht).knows) rfl
      (by simp) (by simp) hparts

/-! ### Interfaces -/

/-- An embedded type is needed, so that it stands for something. -/
theorem embedded?_keeps {typ : NodeId} (hneeds : file.Needs id typ) (hrefers : file.Refers id typ) :
    Keeps file owns (·.Leads file id) (m.embedded? typ) fun o pkg => ∀ t, o = some t → Usable file owns id t pkg := by
  refine .tree (.check rfl fun _ => ?_)
  refine ((hm.type typ).pre fun _ _ h => h.step hrefers).bind (stable_leads id) fun t => .types fun tt => ?_
  refine .ite (fun hnone => ?_) fun _ => .ite (fun _ => .pure fun _ _ _ t ht => by cases ht) fun hvalid => ?_
  · rintro pkg htame ⟨⟨hlead, hmeant⟩, rfl⟩
    have hdeclared : (pkg.types.shape t).isDeclared = true := by
      by_contra hbuilt
      rw [underlying?_of_built (by simpa using hbuilt)] at hnone
      cases hnone
    obtain ⟨u, hu, -⟩ | ⟨spec, howns, hbegun, hback⟩ := hmeant.traced t (.self hdeclared)
    · rw [hu] at hnone
      cases hnone
    · have hsome := htame.bound_of_needs hlayered hneeds howns hbegun hback ((htame.held spec t howns).back hlead)
      rw [Option.isNone_iff_eq_none] at hnone
      rw [hnone] at hsome
      cases hsome
  · refine .check rfl fun _ => .pure ?_
    rintro pkg htame ⟨⟨-, hmeant⟩, rfl⟩ u ⟨⟩
    exact ⟨hmeant.toSeen.refers hrefers, valid_of_not_isInvalid htame.tidy.toKinded (by simpa using hvalid)⟩

theorem member?_keeps (hop : file.tree.op id = .kw .interface) {field : NodeId}
    (hfield : field ∈ file.tree.present id) :
    Keeps file owns (·.Leads file id) (m.member? field) fun o pkg =>
      ∀ member, o = some member → member.Usable file owns id pkg := by
  have hrefers {y : NodeId} (hy : y ∈ file.memberTypes field) : file.Refers id y := by
    refine ParsedFile.refers_of_mentioned ?_
    simp only [ParsedFile.mentioned, hop]
    exact List.mem_flatMap.2 ⟨field, hfield, hy⟩
  refine .tree (.part fun typ htyp => ?_)
  cases hnames : file.tree.part? field 0 with
  | none =>
      have hneeds : file.Needs id typ := by
        refine .inr ?_
        simp only [ParsedFile.inlined, hop]
        exact List.mem_filterMap.2 ⟨field, List.mem_filter.2 ⟨hfield, by rw [hnames]; rfl⟩, htyp⟩
      have hembedded := embedded?_keeps hm hlayered hneeds (hrefers (by simp [ParsedFile.memberTypes, htyp, hnames]))
      refine hembedded.map fun o pkg _ ho member hmember => ?_
      obtain ⟨t, ht, rfl⟩ := Option.map_eq_some_iff.1 hmember
      exact ho t ht
  | some names =>
      have hsignature : ∀ y ∈ file.signatureTypes typ, file.Refers id y := fun y hy =>
        hrefers (by simpa [ParsedFile.memberTypes, htyp, hnames] using hy)
      refine .part fun name _ => (signature?_keeps hm hsignature).bind (stable_leads id) fun o => ?_
      cases o with
      | none => exact .pure fun _ _ _ member hmember => by cases hmember
      | some t =>
          refine .get fun q _ _ => .pure ?_
          rintro pkg - ⟨⟨-, hmade⟩, -⟩ member ⟨⟩
          exact (hmade t rfl).1

theorem members?_keeps (hop : file.tree.op id = .kw .interface) (fields : List NodeId)
    (hfields : ∀ field ∈ fields, field ∈ file.tree.present id) :
    Keeps file owns (·.Leads file id) (m.members? fields) fun o pkg =>
      ∀ members, o = some members → ∀ member ∈ members, member.Usable file owns id pkg := by
  induction fields with
  | nil =>
      refine .pure ?_
      rintro pkg - - members ⟨⟩ member hmember
      cases hmember
  | cons field rest ih =>
      have hrest := ih fun y hy => hfields y (List.mem_cons_of_mem _ hy)
      refine (member?_keeps hm hlayered hop (hfields field List.mem_cons_self)).bind (stable_leads id) fun o => ?_
      cases o with
      | none => exact .pure fun _ _ _ members hmembers => by cases hmembers
      | some first =>
          have hstable : Stable file owns fun pkg => pkg.Leads file id ∧
              ∀ member, some first = some member → member.Usable file owns id pkg :=
            (stable_leads id).and (stable_forall fun member => (stable_member id member).imp)
          refine (hrest.pre fun _ _ h => h.1).bind hstable fun others => .pure ?_
          rintro pkg - ⟨⟨-, hfirst⟩, hothers⟩ members hmembers member hmember
          obtain ⟨others', rfl, rfl⟩ := Option.map_eq_some_iff.1 hmembers
          obtain rfl | hmember := List.mem_cons.1 hmember
          · exact hfirst member rfl
          · exact hothers others' rfl member hmember

omit hm hlayered in
/-- The methods of an interface are its own and those of the interfaces that it embeds. -/
theorem newInterface_keeps {embedded : List TypeId} {direct : List Method}
    (hembedded : ∀ pkg, P pkg → ∀ t ∈ embedded, Usable file owns x t pkg)
    (hdirect : ∀ pkg, P pkg → ∀ f ∈ direct, Usable file owns x f.typ pkg) :
    Keeps file owns P (ResolveM.buildAt id (TypeTable.newInterface embedded direct)) (Made file owns x) := by
  refine .buildAt fun pkg htame hpkg => ?_
  have hknown : ∀ t ∈ embedded ++ direct.map Method.typ, pkg.types.Knows t := by
    intro t ht
    obtain ht | ht := List.mem_append.1 ht
    · exact (hembedded pkg hpkg t ht).knows
    · obtain ⟨f, hf, rfl⟩ := List.mem_map.1 ht
      exact (hdirect pkg hpkg f hf).knows
  obtain ⟨fault, hrun⟩ | ⟨ms, hmerge, hrun⟩ := newInterface_cases embedded direct pkg.types
  · exact htame.refused hrun
  · refine htame.constructs (.interface embedded direct) hrun rfl hknown rfl (by simp) (by simp) fun part hpart => ?_
    have hknows := htame.regular.toSound.knows_merged hknown hmerge part hpart
    obtain ⟨f, hf, rfl⟩ := List.mem_map.1 hpart
    obtain ⟨hfunc, hf | ⟨t, ht, ms', hms', hf⟩⟩ := (mergeMethods_spec hmerge).2 f hf
    · exact hdirect pkg hpkg f hf
    · refine ⟨⟨hknows, fun c hc => ?_⟩, fun hs => ?_⟩
      · obtain ⟨u, hu, hs⟩ := underlying_of_embedded hms'
        refine htame.traced_underlying (hembedded pkg hpkg t ht).traced hu c (.part ?_ hc)
        rw [hs]
        exact List.mem_map_of_mem hf
      · rw [hs] at hfunc
        cases hfunc

theorem interfaceType?_keeps (hop : file.tree.op id = .kw .interface) :
    Keeps file owns (·.Leads file id) (m.interfaceType? id) (MadeIfSome file owns id) := by
  refine .tree ((members?_keeps hm hlayered hop _ fun field hfield => (List.mem_filter.1 hfield).1).bind
    (stable_leads id) fun o => ?_)
  cases o with
  | none => exact .pure fun pkg _ _ => madeIfSome_none pkg
  | some members =>
      refine (newInterface_keeps ?_ ?_).map fun _ _ _ h => madeIfSome_some h
      · rintro pkg ⟨-, h⟩ t ht
        obtain ⟨member, hmember, heq⟩ := List.mem_filterMap.1 ht
        cases member with
        | method f => cases heq
        | embedded u =>
            cases heq
            exact h members rfl _ hmember
      · rintro pkg ⟨-, h⟩ f hf
        obtain ⟨member, hmember, heq⟩ := List.mem_filterMap.1 hf
        cases member with
        | method g =>
            cases heq
            exact h members rfl _ hmember
        | embedded u => cases heq

/-! ### All type expressions -/

omit hm hlayered in
/-- What is missing is invalid, and the invalid type stands for itself. -/
theorem getD_keeps {a : ResolveM (Option TypeId)} (h : Keeps file owns P a (MadeIfSome file owns id)) :
    Keeps file owns P ((fun o : Option TypeId => o.getD TypeTable.invalid) <$> a) (Meant file owns id) := by
  refine h.map fun o pkg htame ho => ?_
  cases o with
  | none => exact htame.meant_invalid id
  | some t =>
      obtain ⟨husable, hbuilt⟩ := ho t rfl
      refine ⟨husable.toSeen, fun _ => ?_⟩
      show (pkg.types.underlying? t).isSome
      rw [underlying?_of_built hbuilt]
      rfl

theorem typeExpr_keeps (id : NodeId) : Keeps file owns (·.Leads file id) (m.typeExpr id) (Meant file owns id) := by
  have hcompound (h : file.mentioned id = file.tree.present id) : IsCompound file id := h
  refine .tree (.ite (fun _ => .pure fun pkg htame _ => htame.meant_invalid id) fun _ => ?_)
  split
  · next hop => exact typeName_keeps hm hlayered hop
  · next hop =>
      refine .part fun c hc => ?_
      have hrefers := (hcompound (by simp only [ParsedFile.mentioned, hop])).refers hc
      refine ((hm.type c).pre fun _ _ h => h.step hrefers).mono fun t pkg _ hmeant => ?_
      exact ⟨hmeant.toSeen.refers hrefers, fun hname => absurd (.inr hop) hname⟩
  · next hop => exact getD_keeps (pointerType?_keeps hm hlayered (hcompound (by simp only [ParsedFile.mentioned, hop])))
  · next hop => exact getD_keeps (arrayType?_keeps hm hlayered hop)
  · next hop => exact getD_keeps (mapType?_keeps hm hlayered (hcompound (by simp only [ParsedFile.mentioned, hop])))
  · next hop => exact getD_keeps (chanType?_keeps hm hlayered _ (hcompound (by simp only [ParsedFile.mentioned, hop])))
  · next hop => exact getD_keeps (chanType?_keeps hm hlayered _ (hcompound (by simp only [ParsedFile.mentioned, hop])))
  · next hop => exact getD_keeps (chanType?_keeps hm hlayered _ (hcompound (by simp only [ParsedFile.mentioned, hop])))
  · next hop =>
      refine getD_keeps (signature?_keeps hm fun y hy => ParsedFile.refers_of_mentioned ?_)
      simp only [ParsedFile.mentioned, hop]
      exact hy
  · next hop => exact getD_keeps (interfaceType?_keeps hm hlayered hop)
  · exact .fail rfl
  · exact .fail rfl
  · exact .fail rfl
  · exact .fail rfl

/-! ### Values -/

theorem constantName_keeps (hop : file.tree.op id = .lit .ident) :
    Keeps file owns (·.Leads file id) (m.constantName id) fun x pkg => pkg.types.Knows x.2 := by
  refine (object_keeps hm hlayered hop).bind (stable_leads id) fun obj => .check rfl fun _ => ?_
  split
  · next htyp => exact .pure fun pkg _ h => h.2.1 _ htyp
  · exact .fail rfl

theorem constantExpr_keeps (id : NodeId) :
    Keeps file owns (·.Leads file id) (m.constantExpr id) fun x pkg => pkg.types.Knows x.2 := by
  refine .tree (.check rfl fun _ => ?_)
  dsimp only
  cases hkind : literalKind? (file.tree.op id) with
  | some kind => exact .pure fun pkg htame _ => knows_basic htame.regular.toSound (isBasic_of_literalKind? hkind)
  | none =>
      dsimp only
      split
      · next hop => exact constantName_keeps hm hlayered hop
      · next hop =>
          have hcompound : IsCompound file id := by simp only [IsCompound, ParsedFile.mentioned, hop]
          exact .part fun c hc => (hm.constant c).pre fun _ _ h => h.step (hcompound.refers hc)
      · exact .fail rfl
      · exact .fail rfl
      · exact .fail rfl
      · exact .fail rfl

theorem valueName_keeps (hop : file.tree.op id = .lit .ident) :
    Keeps file owns (·.Leads file id) (m.valueName id) KnownIfSome := by
  refine (object_keeps hm hlayered hop).bind (stable_leads id) fun obj => ?_
  cases obj.role with
  | constant | «variable» | function => exact .pure fun pkg _ h => h.2.1
  | builtin | type | package => exact .fail rfl

theorem valueExpr_keeps (id : NodeId) : Keeps file owns (·.Leads file id) (m.valueExpr id) KnownIfSome := by
  refine .tree ?_
  dsimp only
  cases hkind : literalKind? (file.tree.op id) with
  | some kind =>
      refine .pure fun pkg htame _ => knownIfSome_some ?_
      exact knows_basic htame.regular.toSound (isBasic_of_literalKind? hkind)
  | none =>
      dsimp only
      split
      · next hop => exact valueName_keeps hm hlayered hop
      · next hop =>
          have hcompound : IsCompound file id := by simp only [IsCompound, ParsedFile.mentioned, hop]
          exact .part fun c hc => (hm.value c).pre fun _ _ h => h.step (hcompound.refers hc)
      · exact .pure fun pkg _ _ => knownIfSome_none pkg

omit hm hlayered in
theorem defaultType_keeps {t : TypeId} (ht : ∀ pkg, P pkg → pkg.types.Knows t) :
    Keeps file owns P (ResolveM.defaultType id t) fun u pkg => pkg.types.Knows u := by
  refine .types fun tt => .check rfl fun _ => .pure fun pkg htame hpkg => ?_
  cases hkind : defaultKind? (tt.kind t) with
  | none => exact ht pkg hpkg.1
  | some kind => exact knows_basic htame.regular.toSound (isBasic_of_defaultKind? hkind)

end Meanings

end GoSource
