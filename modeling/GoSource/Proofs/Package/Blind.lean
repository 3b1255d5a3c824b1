import GoSource.Proofs.Package.Tallies

/-!
# Resolution does not see handles

Resolving the declarations of a file does the same in packages that correspond, whatever the handles of their types are.

* **`Meanings.Blind`**: meanings that do not see handles.
* One lemma a rule: it does not see handles if the meanings do not.
* **`meanings_blind`**: no meanings do.
* **`resolveDecls_blind`**: a file is resolved alike in corresponding packages.
-/

namespace GoSource

open TypeTable

variable {c : Rerun} {w w' : World} {t a : TypeId}

/-! ### Answers that correspond -/

/-- Handles of valid types that correspond. -/
def World.Valid (w : World) (t a : TypeId) : Prop :=
  w.Twin t a ∧ t ≠ invalid

theorem World.Valid.later (h : w.Valid t a) (hlater : w.Later w') : w'.Valid t a :=
  ⟨h.1.later hlater, h.2⟩

/-- Constants that correspond. -/
def World.TwinConstant (w : World) (x y : ConstValue × TypeId) : Prop :=
  y.1 = x.1 ∧ w.Twin x.2 y.2

/-- Parameters that correspond.  The last one of a variadic list is a slice, unless it is invalid. -/
structure World.TwinParams (w : World) (x y : List TypeId × Bool) : Prop where
  types : List.Forall₂ w.Twin x.1 y.1
  variadic_eq : y.2 = x.2
  last : x.2 = true → ∃ p, x.1.getLast? = some p ∧
    ((∃ elem, w.types.shape p = .slice elem) ∨ w.types.isInvalid p = true)

/-- Members of interfaces that correspond. -/
inductive World.TwinMember (w : World) : Meanings.Member → Meanings.Member → Prop
  | method {m m' : Method} (h : w.TwinMethod m m') : TwinMember w (.method m) (.method m')
  | embedded {t a : TypeId} (h : w.Twin t a) : TwinMember w (.embedded t) (.embedded a)

theorem World.TwinMember.later {m m' : Meanings.Member} (h : w.TwinMember m m') (hlater : w.Later w') :
    w'.TwinMember m m' := by
  cases h with
  | method h => exact .method (h.later hlater)
  | embedded h => exact .embedded (h.later hlater)

theorem twins_later {ts as : List TypeId} (h : List.Forall₂ w.Twin ts as) (hlater : w.Later w') :
    List.Forall₂ w'.Twin ts as :=
  h.imp fun _ _ h => h.later hlater

theorem twin?_later {x y : Option TypeId} (h : Option.Rel w.Twin x y) (hlater : w.Later w') : Option.Rel w'.Twin x y :=
  rel_imp h fun _ _ h => h.later hlater

theorem World.TwinParams.later {x y : List TypeId × Bool} (h : w.TwinParams x y) (hlater : w.Later w')
    (hsound : w.types.Sound) : w'.TwinParams x y := by
  refine ⟨twins_later h.types hlater, h.variadic_eq, fun hv => ?_⟩
  obtain ⟨p, hp, hlast⟩ := h.last hv
  refine ⟨p, hp, ?_⟩
  obtain ⟨elem, hs⟩ | hinvalid := hlast
  · exact .inl ⟨elem, hlater.shape_of_built hs rfl (by simp)⟩
  · have hknown : w.types.Knows p := (World.twins_iff.1 h.types).1 p (List.mem_of_getLast? hp)
    exact .inr ((hlater.grows hsound).isInvalid hsound hknown hinvalid)

/-! ### Meanings -/

/-- The meanings do the same in corresponding packages. -/
structure Meanings.Blind (c : Rerun) (m : Meanings) : Prop where
  type : ∀ w id, Tallies c w World.Twin (m.type id) (m.type id)
  constant : ∀ w id, Tallies c w World.TwinConstant (m.constant id) (m.constant id)
  value : ∀ w id, Tallies c w (fun w' => Option.Rel w'.Twin) (m.value id) (m.value id)
  declaration : ∀ w entry, Tallies c w (fun _ => Eq) (m.declaration entry) (m.declaration entry)

namespace Meanings

variable {m : Meanings} {id : NodeId}

theorem predeclared_blind (id : NodeId) (name : String) :
    Tallies c w World.TwinObject
      (do
        match (← get).predeclared? name with
        | some obj => return obj
        | none => ResolveM.fail id (.undefined name))
      (do
        match (← get).predeclared? name with
        | some obj => return obj
        | none => ResolveM.fail id (.undefined name)) := by
  refine .get fun pkg pkg' hpkg => ?_
  obtain ⟨hx, hy⟩ | ⟨obj, obj', hx, hy, hobj⟩ := rel_cases (hpkg.predeclared? name)
  · rw [hx, hy]
    exact .fail id _
  · rw [hx, hy]
    exact .pure hobj

section Rules

variable (h : m.Blind c)
include h

theorem object_blind : Tallies c w World.TwinObject (m.object id) (m.object id) := by
  refine .tree (.check fun _ => .get fun pkg pkg' hpkg => ?_)
  rw [hpkg.declared?_eq]
  cases pkg.declared? (c.file.tree.literal id) with
  | none => exact predeclared_blind id _
  | some entry =>
      refine (h.declaration w entry).bind fun w' _ _ _ _ => .get fun pkg pkg' hpkg => ?_
      obtain ⟨hx, hy⟩ | ⟨obj, obj', hx, hy, hobj⟩ := rel_cases (hpkg.objects entry.name)
      · rw [hx, hy]
        exact predeclared_blind id _
      · rw [hx, hy]
        exact .pure hobj

/-! ### Types -/

theorem component_blind (place : Nat) :
    Tallies c w (fun w' => Option.Rel w'.Valid) (m.component id place) (m.component id place) := by
  refine .part fun child => (h.type w child).bind fun w' _ t a ht => .types fun tt hm => ?_
  obtain ⟨hknown, rfl⟩ := ht
  rw [hm.isInvalid_eq hknown]
  cases hvalid : w'.types.isInvalid t with
  | true => exact .pure .none
  | false => exact .pure (.some ⟨⟨hknown, rfl⟩, hm.ne_invalid hvalid⟩)

theorem typeName_blind : Tallies c w World.Twin (m.typeName id) (m.typeName id) := by
  refine (object_blind h).bind fun w' _ obj obj' hobj => ?_
  obtain ⟨typ', htyp, rfl⟩ := hobj
  refine .check fun _ => ?_
  obtain ⟨hx, rfl⟩ | ⟨t, a, hx, rfl, ht⟩ := rel_cases htyp
  · rw [hx]
    exact .fail id _
  · rw [hx]
    exact .pure ht

theorem lengthLiteral_blind : Tallies c w (fun _ => Eq) (m.lengthLiteral id) (m.lengthLiteral id) := by
  refine .tree ?_
  split
  · exact .pure rfl
  · exact .fail id _
  · refine (object_blind h).bind fun w' _ obj obj' hobj => ?_
    obtain ⟨typ', -, rfl⟩ := hobj
    dsimp only
    split
    · exact .ite (fun _ => .pure rfl) fun _ => .fail id _
    · exact .fail id _
  · exact .fail id _

theorem arrayLength_blind : Tallies c w (fun _ => Eq) (m.arrayLength id) (m.arrayLength id) := by
  refine (lengthLiteral_blind h).bind fun w' _ literal literal' heq => ?_
  subst heq
  cases Literal.integerValue? literal with
  | none => exact .fail id _
  | some n => exact .pure rfl

omit h in
theorem buildArray_blind (id : NodeId) (elem? elem?' : Option TypeId) (length? : Option Nat) :
    Option.Rel w.Valid elem? elem?' → Tallies c w (fun w' => Option.Rel w'.Twin)
      (match elem?, length? with
      | some elem, some length => some <$> ResolveM.buildAt id (TypeTable.newArray elem length)
      | some elem, none => some <$> ResolveM.build (TypeTable.newSlice elem)
      | none, _ => return none)
      (match elem?', length? with
      | some elem, some length => some <$> ResolveM.buildAt id (TypeTable.newArray elem length)
      | some elem, none => some <$> ResolveM.build (TypeTable.newSlice elem)
      | none, _ => return none) := by
  intro helem
  cases helem with
  | none => exact .pure .none
  | some helem =>
      cases length? with
      | none => exact (Tallies.build (mimics_newSlice helem.1 helem.2)).map fun _ _ _ _ ht => .some ht.1
      | some length => exact (Tallies.buildAt id (mimics_newArray helem.1 helem.2 length)).map fun _ _ _ _ ht => .some ht

theorem arrayType?_blind : Tallies c w (fun w' => Option.Rel w'.Twin) (m.arrayType? id) (m.arrayType? id) := by
  refine (component_blind h 1).bind fun w' _ elem? elem?' helem => .tree ?_
  cases c.file.tree.part? id 0 with
  | none => exact buildArray_blind id elem? elem?' none helem
  | some length =>
      have hlength : Tallies c w' (fun _ => Eq) (some <$> m.arrayLength length) (some <$> m.arrayLength length) :=
        (arrayLength_blind h).map fun _ _ _ _ heq => congrArg some heq
      refine hlength.bind fun w'' hlater length? length?' heq => ?_
      subst heq
      exact buildArray_blind id elem? elem?' length? (rel_imp helem fun _ _ h => h.later hlater)

theorem fieldTypes_blind (final : Bool) :
    Tallies c w (fun w' x y => w'.TwinParams x y ∧ (x.2 = true → final = true)) (m.fieldTypes final id)
      (m.fieldTypes final id) := by
  refine .tree (.part fun typ => .ite (fun _ => .check fun hfinal => ?_) fun _ => ?_)
  · have hfinal : final = true := by
      by_contra hnot
      simp [hnot] at hfinal
    refine .part fun elem => (h.type w elem).bind fun w' _ t a ht => .types fun tt hm => ?_
    have hknown := ht.1
    have ha := ht.2
    rw [ha, hm.isInvalid_eq hknown, ← ha]
    refine .ite (fun hinvalid => .pure ⟨⟨.cons ht .nil, rfl, fun _ => ⟨t, rfl, .inr hinvalid⟩⟩, fun _ => hfinal⟩) ?_
    intro hvalid
    have hvalid : t ≠ invalid := hm.ne_invalid (by simpa using hvalid)
    have hslice : Mimics (Matches c.start c.base) w' (fun w'' u b => w''.Twin u b ∧ w''.types.shape u = .slice t)
      (newSlice t) (newSlice a) := mimics_newSlice ht hvalid
    refine (Tallies.build hslice).bind fun w'' _ slice slice' ⟨htwin, hs⟩ => ?_
    exact .pure ⟨⟨.cons htwin .nil, rfl, fun _ => ⟨slice, rfl, .inl ⟨t, hs⟩⟩⟩, fun _ => hfinal⟩
  · refine (h.type w typ).bind fun w' _ t a ht => .pure ⟨⟨?_, rfl, fun hv => ?_⟩, fun hv => ?_⟩
    · obtain ⟨hknown, rfl⟩ := ht
      rw [World.twins_iff, List.map_replicate]
      exact ⟨fun p hp => List.eq_of_mem_replicate hp ▸ hknown, rfl⟩
    · cases hv
    · cases hv

theorem fieldListTypes_blind (mayBeVariadic : Bool) (fields : List NodeId) :
    Tallies c w (fun w' x y => w'.TwinParams x y ∧ (fields = [] → x.1 = [])) (m.fieldListTypes mayBeVariadic fields)
      (m.fieldListTypes mayBeVariadic fields) := by
  induction fields generalizing w with
  | nil => exact .pure ⟨⟨.nil, rfl, fun hv => by cases hv⟩, fun _ => rfl⟩
  | cons field rest ih =>
      refine (fieldTypes_blind h _).bind fun w' _ first first' ⟨hfirst, hfinal⟩ => .assume fun pkg pkg' hpkg => ?_
      refine ih.bind fun w'' hlater others others' ⟨hothers, hempty⟩ => .pure ⟨?_, fun heq => by cases heq⟩
      have hfirst' := hfirst.later hlater hpkg.sound
      refine ⟨List.rel_append hfirst'.types hothers.types, ?_, fun hv => ?_⟩
      · rw [hfirst'.variadic_eq, hothers.variadic_eq]
      · cases hrest : others.2 with
        | true =>
            obtain ⟨p, hp, hlast⟩ := hothers.last hrest
            exact ⟨p, by simp [hp], hlast⟩
        | false =>
            -- A variadic field is the last one.
            have hv : first.2 = true := by simpa [hrest] using hv
            have hnil : others.1 = [] := hempty (by simpa using (Bool.and_eq_true_iff.1 (hfinal hv)).2)
            obtain ⟨p, hp, hlast⟩ := hfirst'.last hv
            exact ⟨p, by simp [hnil, hp], hlast⟩

theorem signaturePart_blind (mayBeVariadic : Bool) (fields : Child) :
    Tallies c w World.TwinParams (m.signaturePart mayBeVariadic fields) (m.signaturePart mayBeVariadic fields) :=
  .tree ((fieldListTypes_blind h mayBeVariadic _).imp fun _ _ _ hparams => hparams.1)

theorem signature?_blind : Tallies c w (fun w' => Option.Rel w'.Twin) (m.signature? id) (m.signature? id) := by
  refine .tree ((signaturePart_blind h true _).bind fun w₁ _ params params' hparams => ?_)
  refine .assume fun pkg pkg' hpkg => ?_
  refine (signaturePart_blind h false _).bind fun w₂ hlater results results' hresults => .types fun tt hm => ?_
  have hparams := hparams.later hlater hpkg.sound
  have htwins : List.Forall₂ w₂.Twin (params.1 ++ results.1) (params'.1 ++ results'.1) :=
    List.rel_append hparams.types hresults.types
  rw [hm.any_isInvalid_eq (World.twins_iff.1 htwins).1 (World.twins_iff.1 htwins).2, hparams.variadic_eq]
  refine .ite (fun _ => .pure .none) fun hvalid => ?_
  have hvalid (t : TypeId) (ht : t ∈ params.1 ++ results.1) : w₂.types.isInvalid t = false := by
    by_contra hinvalid
    exact hvalid (List.any_eq_true.2 ⟨t, ht, by simpa using hinvalid⟩)
  refine (Tallies.buildAt id (mimics_newFunc hparams.types hresults.types ?_ fun hv => ?_)).map fun _ _ _ _ ht => .some ht
  · exact fun hmem => hm.ne_invalid (hvalid _ hmem) rfl
  · obtain ⟨p, hp, ⟨elem, hs⟩ | hinvalid⟩ := hparams.last hv
    · exact ⟨p, elem, hp, hs⟩
    · rw [hvalid p (List.mem_append_left _ (List.mem_of_getLast? hp))] at hinvalid
      cases hinvalid

/-! ### Interfaces -/

theorem embedded?_blind : Tallies c w (fun w' => Option.Rel w'.Twin) (m.embedded? id) (m.embedded? id) := by
  refine .tree (.check fun _ => (h.type w id).bind fun w' _ t a ht => .types fun tt hm => ?_)
  obtain ⟨hknown, rfl⟩ := ht
  rw [hm.underlying?_eq hknown, Option.isNone_map, hm.isInvalid_eq hknown, hm.kind_eq hknown, hm.spell_eq hknown]
  exact .check fun _ => .ite (fun _ => .pure .none) fun _ => .check fun _ => .pure (.some ⟨hknown, rfl⟩)

theorem member?_blind : Tallies c w (fun w' => Option.Rel w'.TwinMember) (m.member? id) (m.member? id) := by
  refine .tree (.part fun typ => ?_)
  cases c.file.tree.part? id 0 with
  | none => exact (embedded?_blind h).map fun _ _ _ _ ht => rel_map ht fun _ _ => .embedded
  | some names =>
      refine .part fun name => (signature?_blind h).bind fun w' _ signature signature' hsignature => ?_
      obtain ⟨rfl, rfl⟩ | ⟨t, a, rfl, rfl, ht⟩ := rel_cases hsignature
      · exact .pure .none
      · refine .get fun pkg pkg' hpkg => ?_
        rw [hpkg.methodPath_eq]
        exact .pure (.some (.method (ht.method _ _)))

theorem members?_blind (fields : List NodeId) :
    Tallies c w (fun w' => Option.Rel (List.Forall₂ w'.TwinMember)) (m.members? fields) (m.members? fields) := by
  induction fields generalizing w with
  | nil => exact .pure (.some .nil)
  | cons field rest ih =>
      refine (member?_blind h).bind fun w' _ member member' hmember => ?_
      obtain ⟨rfl, rfl⟩ | ⟨first, first', rfl, rfl, hfirst⟩ := rel_cases hmember
      · exact .pure .none
      · refine ih.map fun w'' hlater others others' hothers => rel_map hothers fun _ _ hrest => .cons ?_ hrest
        exact hfirst.later hlater

theorem interfaceType?_blind :
    Tallies c w (fun w' => Option.Rel w'.Twin) (m.interfaceType? id) (m.interfaceType? id) := by
  refine .tree ((members?_blind h _).bind fun w' _ members members' hmembers => ?_)
  obtain ⟨rfl, rfl⟩ | ⟨listed, listed', rfl, rfl, hlisted⟩ := rel_cases hmembers
  · exact .pure .none
  · refine (Tallies.buildAt id (mimics_newInterface ?_ ?_)).map fun _ _ _ _ ht => .some ht
    · refine List.rel_filterMap (fun member member' hmember => ?_) hlisted
      cases hmember with
      | method => exact .none
      | embedded ht => exact .some ht
    · refine List.rel_filterMap (fun member member' hmember => ?_) hlisted
      cases hmember with
      | method hmethod => exact .some hmethod
      | embedded => exact .none

/-! ### All type expressions -/

theorem chanType?_blind (dir : ChanDir) :
    Tallies c w (fun w' => Option.Rel w'.Twin) (m.chanType? id dir) (m.chanType? id dir) := by
  refine (component_blind h 0).bind fun w' _ elem elem' helem => ?_
  obtain ⟨rfl, rfl⟩ | ⟨t, a, rfl, rfl, ht⟩ := rel_cases helem
  · exact .pure .none
  · exact (Tallies.build (mimics_newChan ht.1 ht.2 dir)).map fun _ _ _ _ ht => .some ht

theorem pointerType?_blind : Tallies c w (fun w' => Option.Rel w'.Twin) (m.pointerType? id) (m.pointerType? id) := by
  refine (component_blind h 0).bind fun w' _ elem elem' helem => ?_
  obtain ⟨rfl, rfl⟩ | ⟨t, a, rfl, rfl, ht⟩ := rel_cases helem
  · exact .pure .none
  · exact (Tallies.build (mimics_newPointer ht.1 ht.2)).map fun _ _ _ _ ht => .some ht

theorem mapType?_blind : Tallies c w (fun w' => Option.Rel w'.Twin) (m.mapType? id) (m.mapType? id) := by
  refine (component_blind h 0).bind fun w₁ _ key key' hkey => ?_
  refine (component_blind h 1).bind fun w₂ hlater elem elem' helem => ?_
  obtain ⟨rfl, rfl⟩ | ⟨k, a, rfl, rfl, hk⟩ := rel_cases hkey
  · exact .pure .none
  · obtain ⟨rfl, rfl⟩ | ⟨e, b, rfl, rfl, he⟩ := rel_cases helem
    · exact .pure .none
    · refine (Tallies.build (mimics_newMap (hk.1.later hlater) he.1 hk.2 he.2)).map fun _ _ _ _ ht => .some ht

theorem typeExpr_blind : Tallies c w World.Twin (m.typeExpr id) (m.typeExpr id) := by
  refine .assume fun pkg pkg' hpkg => .tree (.ite (fun _ => .pure hpkg.twin_invalid) fun _ => ?_)
  -- What could not be built is invalid.
  have hinvalid {x y : ResolveM (Option TypeId)} (hxy : Tallies c w (fun w' => Option.Rel w'.Twin) x y) :
      Tallies c w World.Twin ((fun t => t.getD TypeTable.invalid) <$> x) ((fun t => t.getD TypeTable.invalid) <$> y) := by
    refine hxy.map fun w' hlater t? a? ht => ?_
    obtain ⟨rfl, rfl⟩ | ⟨t, a, rfl, rfl, htwin⟩ := rel_cases ht
    · exact hpkg.twin_invalid.later hlater
    · exact htwin
  split
  · exact typeName_blind h
  · exact .part fun child => h.type w child
  · exact hinvalid (pointerType?_blind h)
  · exact hinvalid (arrayType?_blind h)
  · exact hinvalid (mapType?_blind h)
  · exact hinvalid (chanType?_blind h .both)
  · exact hinvalid (chanType?_blind h .send)
  · exact hinvalid (chanType?_blind h .recv)
  · exact hinvalid (signature?_blind h)
  · exact hinvalid (interfaceType?_blind h)
  · exact .fail id _
  · exact .fail id _
  · exact .fail id _
  · exact .fail id _

/-! ### Values -/

theorem constantName_blind : Tallies c w World.TwinConstant (m.constantName id) (m.constantName id) := by
  refine (object_blind h).bind fun w' _ obj obj' hobj => ?_
  obtain ⟨typ', htyp, rfl⟩ := hobj
  refine .check fun _ => ?_
  cases hvalue : obj.value with
  | none => exact .fail id _
  | some v =>
      obtain ⟨hx, rfl⟩ | ⟨t, a, hx, rfl, ht⟩ := rel_cases htyp
      · rw [hx]
        exact .fail id _
      · rw [hx]
        exact .pure ⟨rfl, ht⟩

theorem constantExpr_blind : Tallies c w World.TwinConstant (m.constantExpr id) (m.constantExpr id) := by
  refine .assume fun pkg pkg' hpkg => .tree (.check fun _ => ?_)
  dsimp only
  cases literalKind? (c.file.tree.op id) with
  | some kind => exact .pure ⟨rfl, hpkg.twin_basic kind⟩
  | none =>
      dsimp only
      split
      · exact constantName_blind h
      · exact .part fun child => h.constant w child
      · exact .fail id _
      · exact .fail id _
      · exact .fail id _
      · exact .fail id _

theorem valueName_blind : Tallies c w (fun w' => Option.Rel w'.Twin) (m.valueName id) (m.valueName id) := by
  refine (object_blind h).bind fun w' _ obj obj' hobj => ?_
  obtain ⟨typ', htyp, rfl⟩ := hobj
  dsimp only
  cases obj.role with
  | constant | «variable» | function => exact .pure htyp
  | builtin | type | package => exact .fail id _

theorem valueExpr_blind : Tallies c w (fun w' => Option.Rel w'.Twin) (m.valueExpr id) (m.valueExpr id) := by
  refine .assume fun pkg pkg' hpkg => .tree ?_
  dsimp only
  cases literalKind? (c.file.tree.op id) with
  | some kind => exact .pure (.some (hpkg.twin_basic kind))
  | none =>
      dsimp only
      split
      · exact valueName_blind h
      · exact .part fun child => h.value w child
      · exact .pure .none

omit h in
theorem defaultType_blind (value : NodeId) (ht : w.Twin t a) :
    Tallies c w World.Twin (ResolveM.defaultType value t) (ResolveM.defaultType value a) := by
  refine .assume fun pkg pkg' hpkg => .types fun tt hm => ?_
  have hkind : tt.kind a = w.types.kind t := by rw [ht.2, hm.kind_eq ht.1]
  rw [hkind]
  refine .check fun _ => .pure ?_
  cases defaultKind? (w.types.kind t) with
  | none => exact ht
  | some k => exact hpkg.twin_basic k

/-! ### Declarations -/

omit h in
theorem mismatches_blind {u b : TypeId} (ht : w.Twin t a) (hu : w.Twin u b) :
    Tallies c w (fun _ => Eq) (ResolveM.mismatches t u) (ResolveM.mismatches a b) := by
  obtain ⟨ht, rfl⟩ := ht
  obtain ⟨hu, rfl⟩ := hu
  refine .types fun tt hm => ?_
  rw [hm.isInvalid_eq hu, hm.assignable_eq ht hu]
  exact .pure rfl

omit h in
/-- An entity gets a type. -/
theorem update_blind (name : NodeId) (value : Object → Option ConstValue) {typ typ' : Option TypeId}
    (htyp : Option.Rel w.Twin typ typ') (hvalue : ∀ obj typ, value { obj with typ } = value obj) :
    Tallies c w (fun _ => Eq) (ResolveM.update name fun obj => { obj with value := value obj, typ })
      (ResolveM.update name fun obj => { obj with value := value obj, typ := typ' }) := by
  refine .update name fun obj obj' hobj => ?_
  obtain ⟨typ'', -, rfl⟩ := hobj
  exact ⟨typ', htyp, by rw [hvalue]⟩

theorem typeSpec_blind (entry : Entry) : Tallies c w (fun _ => Eq) (m.typeSpec entry) (m.typeSpec entry) := by
  refine .part fun child => (h.type w child).bind fun w' _ meaning meaning' hmeaning => .get fun pkg pkg' hpkg => ?_
  obtain ⟨hx, hy⟩ | ⟨obj, obj', hx, hy, typ', htyp, rfl⟩ := rel_cases (hpkg.objects entry.name)
  · rw [hx, hy]
    exact .pure rfl
  · rw [hx, hy]
    dsimp only
    obtain ⟨hx, rfl⟩ | ⟨t, a, hx, rfl, ht⟩ := rel_cases htyp
    · rw [hx]
      exact update_blind entry.name Object.value (.some hmeaning) fun _ _ => rfl
    · rw [hx]
      refine .types fun tt hm => ?_
      rw [hmeaning.2, hm.underlying?_eq hmeaning.1, Option.isNone_map, ← hmeaning.2]
      exact .check fun _ => .build (mimics_setUnderlying ht hmeaning)

theorem constantDecl_blind {declared declared' : Option TypeId} (hdeclared : Option.Rel w.Twin declared declared')
    (name value : NodeId) :
    Tallies c w (fun _ => Eq) (m.constantDecl declared name value) (m.constantDecl declared' name value) := by
  refine (h.constant w value).bind fun w' hlater x x' hx => ?_
  obtain ⟨v, t⟩ := x
  obtain ⟨v', a⟩ := x'
  have ht : w'.Twin t a := hx.2
  obtain rfl : v' = v := hx.1
  obtain ⟨rfl, rfl⟩ | ⟨d, b, rfl, rfl, hd⟩ := rel_cases (twin?_later hdeclared hlater)
  · exact update_blind name (fun _ => some v') (.some ht) fun _ _ => rfl
  · refine .types fun tt hm => (mismatches_blind ht hd).bind fun w'' hlater' bad bad' heq => ?_
    subst heq
    have hkind : tt.kind b = w'.types.kind d := by rw [hd.2, hm.kind_eq hd.1]
    have hspell : tt.spell a = w'.types.spell t := by rw [ht.2, hm.spell_eq ht.1]
    have hspell' : tt.spell b = w'.types.spell d := by rw [hd.2, hm.spell_eq hd.1]
    rw [hkind, hspell, hspell']
    refine .check fun _ => ?_
    exact update_blind name (fun _ => some { v' with kind := w'.types.kind d }) (.some (hd.later hlater')) fun _ _ => rfl

omit h in
theorem giveVariable_blind {declared declared' : Option TypeId} (hdeclared : Option.Rel w.Twin declared declared')
    (name : NodeId) {inferred inferred' : Option (NodeId × TypeId)}
    (hinferred : Option.Rel (fun x y => y.1 = x.1 ∧ w.Twin x.2 y.2) inferred inferred') :
    Tallies c w (fun _ => Eq) (giveVariable declared name inferred) (giveVariable declared' name inferred') := by
  have hgive {w : World} {typ typ' : Option TypeId} (htyp : Option.Rel w.Twin typ typ') :=
    update_blind (c := c) name Object.value htyp fun _ _ => rfl
  unfold giveVariable
  obtain ⟨rfl, rfl⟩ | ⟨d, b, rfl, rfl, hd⟩ := rel_cases hdeclared
  · obtain ⟨rfl, rfl⟩ | ⟨⟨v, t⟩, ⟨v', a⟩, rfl, rfl, rfl, ht⟩ := rel_cases hinferred
    · exact hgive .none
    · have hdefault : Tallies c w (fun w' => Option.Rel w'.Twin) (some <$> ResolveM.defaultType v' t)
          (some <$> ResolveM.defaultType v' a) := (defaultType_blind v' ht).map fun _ _ _ _ ht => .some ht
      exact hdefault.bind fun w' _ typ typ' htyp => hgive htyp
  · obtain ⟨rfl, rfl⟩ | ⟨⟨v, t⟩, ⟨v', a⟩, rfl, rfl, rfl, ht⟩ := rel_cases hinferred
    · exact hgive (.some hd)
    · refine (mismatches_blind ht hd).bind fun w' hlater bad bad' heq => ?_
      subst heq
      refine .ite (fun _ => ?_) fun _ => hgive (.some (hd.later hlater))
      refine .types fun tt hm => .tree ?_
      have ht : w'.Twin t a := World.Twin.later ht hlater
      have hd := hd.later hlater
      have hspell : tt.spell a = w'.types.spell t := by rw [ht.2, hm.spell_eq ht.1]
      have hspell' : tt.spell b = w'.types.spell d := by rw [hd.2, hm.spell_eq hd.1]
      rw [hspell, hspell']
      exact .fail_bind

theorem variableDecl_blind {declared declared' : Option TypeId} (hdeclared : Option.Rel w.Twin declared declared')
    (name : NodeId) (value : Option NodeId) :
    Tallies c w (fun _ => Eq) (m.variableDecl declared name value) (m.variableDecl declared' name value) := by
  cases value with
  | none => exact giveVariable_blind hdeclared name .none
  | some v =>
      refine (h.value w v).bind fun w' hlater t? a? ht => ?_
      exact giveVariable_blind (twin?_later hdeclared hlater) name (rel_map ht fun _ _ ht => ⟨rfl, ht⟩)

theorem valueSpec_blind (entry : Entry) : Tallies c w (fun _ => Eq) (m.valueSpec entry) (m.valueSpec entry) := by
  let items (place : Nat) : List NodeId := (c.file.tree.part? entry.spec place).elim [] c.file.tree.present
  have hdecls {w : World} {declared declared' : Option TypeId} (hdeclared : Option.Rel w.Twin declared declared') :
      Tallies c w (fun _ => Eq)
        (if entry.role = .constant then m.constantDecls entry.spec declared (items 0) (items 2)
          else m.variableDecls entry.spec declared (items 0) (items 2))
        (if entry.role = .constant then m.constantDecls entry.spec declared' (items 0) (items 2)
          else m.variableDecls entry.spec declared' (items 0) (items 2)) := by
    unfold constantDecls variableDecls
    refine .ite (fun _ => .check fun _ => .check fun _ => .forM _ fun w' hlater x _ => ?_) fun _ =>
      .check fun _ => .forM _ fun w' hlater x _ => ?_
    · exact constantDecl_blind h (twin?_later hdeclared hlater) x.1 x.2
    · exact variableDecl_blind h (twin?_later hdeclared hlater) x.1 _
  refine .tree ?_
  cases c.file.tree.part? entry.spec 1 with
  | none => exact hdecls .none
  | some t =>
      have htype : Tallies c w (fun w' => Option.Rel w'.Twin) (some <$> m.type t) (some <$> m.type t) :=
        (h.type w t).map fun _ _ _ _ ht => .some ht
      exact htype.bind fun w' _ declared declared' hdeclared => hdecls hdeclared

theorem function_blind (entry : Entry) : Tallies c w (fun _ => Eq) (m.function entry) (m.function entry) := by
  refine .part fun child => (h.type w child).bind fun w' _ t a ht => .get fun pkg pkg' hpkg => ?_
  obtain ⟨hx, hy⟩ | ⟨obj, obj', hx, hy, typ', -, rfl⟩ := rel_cases (hpkg.objects entry.name)
  · rw [hx, hy]
    exact .pure rfl
  · have hinputs : pkg'.types.inputCount a = pkg.types.inputCount t := by
      rw [hpkg.types.1, ht.2, hpkg.mirrors.inputCount_eq ht.1]
    have houtputs : pkg'.types.outputCount a = pkg.types.outputCount t := by
      rw [hpkg.types.1, ht.2, hpkg.mirrors.outputCount_eq ht.1]
    rw [hx, hy]
    dsimp only
    rw [hpkg.path_eq, hinputs, houtputs]
    exact .check fun _ => update_blind entry.name Object.value (.some ht) fun _ _ => rfl

theorem byRole_blind (entry : Entry) : Tallies c w (fun _ => Eq) (m.byRole entry) (m.byRole entry) := by
  unfold byRole
  cases entry.role with
  | type => exact typeSpec_blind h entry
  | constant | «variable» => exact valueSpec_blind h entry
  | function => exact function_blind h entry
  | builtin | package => exact .pure rfl

omit h in
theorem poison_blind (name : NodeId) : Tallies c w (fun _ => Eq) (ResolveM.poison name) (ResolveM.poison name) := by
  refine .get fun pkg pkg' hpkg => ?_
  obtain ⟨hx, hy⟩ | ⟨obj, obj', hx, hy, typ', htyp, rfl⟩ := rel_cases (hpkg.objects name)
  · rw [hx, hy]
    exact .pure rfl
  · rw [hx, hy]
    dsimp only
    obtain ⟨hx, rfl⟩ | ⟨t, a, hx, rfl, ht⟩ := rel_cases htyp
    · rw [hx]
      exact update_blind name Object.value (.some hpkg.twin_invalid) fun _ _ => rfl
    · rw [hx]
      refine .types fun tt hm => ?_
      rw [ht.2, hm.pkgPath?_eq ht.1, hm.underlying?_eq ht.1, Option.isNone_map, ← ht.2]
      exact .ite (fun _ => .build (mimics_setUnderlying ht hpkg.twin_invalid)) fun _ => .pure rfl

omit h in
theorem conclude_blind (entry : Entry) {outcome outcome' : Except Failure Unit} (heq : outcome' = outcome) :
    Tallies c w (fun _ => Eq) (conclude entry outcome) (conclude entry outcome') := by
  subst heq
  unfold conclude
  refine (Tallies.modify fun pkg pkg' hpkg => ?_).bind fun w' _ _ _ _ => ?_
  · exact { hpkg with tasks_eq := by rw [Package.setProgress, hpkg.tasks_eq, Package.setProgress] }
  · split
    · exact .pure rfl
    · exact .ite (fun _ => (poison_blind _).bind fun _ _ _ _ _ => .record _) fun _ => .record _
    · exact .throw _

theorem resolve_blind (entry : Entry) : Tallies c w (fun _ => Eq) (m.resolve entry) (m.resolve entry) := by
  refine .get fun pkg pkg' hpkg => ?_
  rw [hpkg.progress?_eq]
  refine .ite (fun _ => .pure rfl) fun _ => ?_
  refine (Tallies.modify fun pkg pkg' hpkg => ?_).bind fun w' _ _ _ _ => ?_
  · exact { hpkg with tasks_eq := by rw [Package.setProgress, hpkg.tasks_eq, Package.setProgress] }
  · exact (byRole_blind h entry).attempt.bind fun w'' _ outcome outcome' hagree => conclude_blind entry hagree.eq

/-! ### Methods -/

omit h in
theorem receiverType_blind (base : NodeId) (name : String) :
    Tallies c w World.Twin (receiverType base name) (receiverType base name) := by
  refine .get fun pkg pkg' hpkg => ?_
  rw [hpkg.declared?_eq]
  cases pkg.declared? name with
  | none =>
      have hsome : (pkg'.predeclared? name).isSome = (pkg.predeclared? name).isSome := by
        obtain ⟨hx, hy⟩ | ⟨_, _, hx, hy, -⟩ := rel_cases (hpkg.predeclared? name)
        · rw [hx, hy]
        · rw [hx, hy]
          rfl
      dsimp only
      rw [hsome]
      exact .ite (fun _ => .fail _ _) fun _ => .fail _ _
  | some entry =>
      have hdenoted : Option.Rel w.Twin
          (if entry.role = .type then (pkg.objects.get? entry.name).bind Object.typ else none)
          (if entry.role = .type then (pkg'.objects.get? entry.name).bind Object.typ else none) := by
        split
        · obtain ⟨hx, hy⟩ | ⟨obj, obj', hx, hy, typ', htyp, rfl⟩ := rel_cases (hpkg.objects entry.name)
          · rw [hx, hy]
            exact .none
          · rw [hx, hy]
            exact htyp
        · exact .none
      have hpath (t a : TypeId) (ht : w.Twin t a) : (pkg'.types.pkgPath? a).isSome = (pkg.types.pkgPath? t).isSome := by
        rw [hpkg.types.1, ht.2, hpkg.mirrors.pkgPath?_eq ht.1]
      dsimp only
      obtain ⟨hx, hy⟩ | ⟨t, a, hx, hy, ht⟩ := rel_cases (rel_filter hdenoted hpath)
      · rw [hx, hy]
        exact .fail _ _
      · rw [hx, hy]
        exact .pure ht

omit h in
theorem receiverBase_blind (recv : NodeId) :
    Tallies c w (fun _ => Eq) (receiverBase recv) (receiverBase recv) := by
  have hname {w : World} (base : NodeId) : Tallies c w (fun _ => Eq)
      (do
        if c.file.tree.op base ≠ .lit .ident then
          ResolveM.fail base (.invalidReceiver (c.file.tree.render base))
        return base)
      (do
        if c.file.tree.op base ≠ .lit .ident then
          ResolveM.fail base (.invalidReceiver (c.file.tree.render base))
        return base) :=
    .check fun _ => .pure rfl
  refine .tree ?_
  split
  · exact .part fun typ => .ite (fun _ => .part fun base => hname base) fun _ => hname typ
  · exact .fail _ _
  · exact .fail _ _

omit h in
theorem addMethod_blind (decl nameNode : NodeId) (receiver : String) {signature b : TypeId} {k : Kind}
    (ht : w.Twin t a) (hsignature : w.Twin signature b) (hk : w.types.kind t = k) (hvalid : k ≠ .invalid)
    (hinterface : k ≠ .interface) :
    Tallies c w (fun _ => Eq) (addMethod decl nameNode receiver t signature)
      (addMethod decl nameNode receiver a b) := by
  refine .tree (.get fun pkg pkg' hpkg => ?_)
  rw [hpkg.methods_eq]
  refine .check fun _ => (Tallies.modify fun pkg pkg' hpkg => ?_).bind fun w' hlater _ _ _ => ?_
  · exact { hpkg with methods_eq := by rw [hpkg.methods_eq] }
  · refine .get fun pkg₁ pkg₁' hpkg₁ => ?_
    rw [hpkg₁.methodPath_eq]
    have hk' : w'.types.kind t = k := (hlater.grows hpkg.sound).kind_eq hpkg.sound hk hvalid
    have hmethod := (hsignature.later hlater).method (c.file.tree.literal nameNode)
    refine (Tallies.buildAt nameNode (mimics_addMethod (ht.later hlater) (hmethod _) (hk'.trans_ne hinterface))).bind ?_
    intro w'' hlater' _ _ _
    have htyp : w''.Twin signature b := hsignature.later (hlater.trans hlater')
    exact .modify fun pkg pkg' hpkg => { hpkg with objects := hpkg.insert ⟨some b, .some htyp, rfl⟩ nameNode }

theorem method_blind (decl : NodeId) : Tallies c w (fun _ => Eq) (m.method decl) (m.method decl) := by
  refine .part fun recv => .part fun nameNode => .part fun signatureNode => .tree (.check fun _ => ?_)
  refine (receiverBase_blind recv).bind fun w₁ _ base base' heq => ?_
  subst heq
  refine (receiverType_blind base _).bind fun w₂ _ t a ht => .types fun tt hm => ?_
  have hkind : tt.kind a = w₂.types.kind t := by rw [ht.2, hm.kind_eq ht.1]
  rw [hkind]
  cases hk : w₂.types.kind t with
  | invalid => exact .pure rfl
  | pointer | interface => exact .fail _ _
  | _ =>
      refine (h.type w₂ signatureNode).bind fun w₃ hlater signature b hsignature => .types fun tt' hm' => ?_
      rw [hsignature.2, hm'.isInvalid_eq hsignature.1, ← hsignature.2]
      refine .ite (fun _ => ?_) fun _ => .pure rfl
      have hk' := (hlater.grows hm.faithful.toSound).kind_eq hm.faithful.toSound hk (by simp)
      exact addMethod_blind decl nameNode _ (ht.later hlater) hsignature hk' (by simp) (by simp)

end Rules

/-! ### Closing the cycles -/

/-- A question is answered by one rule below a bound, and by another from there on. -/
theorem weighed_blind {α β : Type} {V : World → α → β → Prop} {x : Nat → ResolveM α} {y : Nat → ResolveM β}
    {z : ResolveM α} {z' : ResolveM β} {bound : Nat} (rank : Nat) (h : ∀ n < bound, Tallies c w V (x n) (y n))
    (hz : Tallies c w V z z') :
    Tallies c w V
      (fun file pkg => if _h : pkg.weight file.tree.size rank < bound then x (pkg.weight file.tree.size rank) file pkg
        else z file pkg)
      (fun file pkg => if _h : pkg.weight file.tree.size rank < bound then y (pkg.weight file.tree.size rank) file pkg
        else z' file pkg) := by
  intro pkg pkg' hpkg
  dsimp only
  rw [hpkg.weight_eq]
  by_cases hlt : pkg.weight c.file.tree.size rank < bound
  · rw [dif_pos hlt, dif_pos hlt]
    exact h _ hlt pkg pkg' hpkg
  · rw [dif_neg hlt, dif_neg hlt]
    exact hz pkg pkg' hpkg

end Meanings

open Meanings

/-- No meanings see handles. -/
theorem meanings_blind (bound : Nat) : (meanings bound).Blind c := by
  -- By induction on the bound, as the questions that a rule asks weigh less than the one that it answers.
  induction bound using Nat.strongRecOn with
  | _ bound ih =>
    rw [meanings]
    constructor
    · intro w id
      refine weighed_blind id.rank (fun n hn => typeExpr_blind (ih n hn)) ?_
      exact .assume fun pkg pkg' hpkg => .pure hpkg.twin_invalid
    · exact fun w id => weighed_blind id.rank (fun n hn => constantExpr_blind (ih n hn)) (.fail id _)
    · exact fun w id => weighed_blind id.rank (fun n hn => valueExpr_blind (ih n hn)) (.pure .none)
    · exact fun w entry => weighed_blind declarationRank (fun n hn => resolve_blind (ih n hn) entry) (.pure rfl)

namespace ResolveM

theorem run_blind {rule : Meanings → ResolveM Unit} (h : ∀ m : Meanings, m.Blind c → Tallies c w (fun _ => Eq) (rule m) (rule m)) :
    Tallies c w (fun _ => Eq) (run rule) (run rule) := by
  intro pkg pkg' hpkg
  have hrun := h (meanings (pkg.weight c.file.tree.size (c.file.tree.size + 1))) (meanings_blind _) pkg pkg' hpkg
  rw [run, run, hpkg.weight_eq]
  exact hrun

theorem containsItself_blind (ht : w.Twin t a) :
    Tallies c w (fun _ => Eq) (containsItself t) (containsItself a) := by
  refine .types fun tt hm => ?_
  rw [ht.2, hm.underlying?_eq ht.1, Option.isNone_map, hm.isInvalid_eq ht.1, ← ht.2]
  refine .ite (fun _ => .pure rfl) fun _ => (Tallies.build (mimics_completed ht)).bind fun w' _ layout layout' heq => ?_
  subst heq
  exact .pure rfl

theorem checkFinite_blind (entry : Entry) : Tallies c w (fun _ => Eq) (checkFinite entry) (checkFinite entry) := by
  refine .ite (fun _ => .get fun pkg pkg' hpkg => ?_) fun _ => .pure rfl
  obtain ⟨hx, hy⟩ | ⟨obj, obj', hx, hy, typ', htyp, rfl⟩ := rel_cases (hpkg.objects entry.name)
  · rw [hx, hy]
    exact .pure rfl
  · rw [hx, hy]
    dsimp only
    obtain ⟨hx, rfl⟩ | ⟨t, a, hx, rfl, ht⟩ := rel_cases htyp
    · rw [hx]
      exact .pure rfl
    · rw [hx]
      refine (containsItself_blind ht).bind fun w' _ found found' heq => ?_
      subst heq
      refine .ite (fun _ => ?_) fun _ => .pure rfl
      exact Tallies.modify fun pkg pkg' hpkg => hpkg.report _ _ _

theorem resolveAll_blind (methods : List NodeId) :
    Tallies c w (fun _ => Eq) (resolveAll methods) (resolveAll methods) := by
  refine .get fun pkg pkg' hpkg => ?_
  rw [hpkg.tasks_eq]
  refine (Tallies.forM _ fun w' _ entry _ => run_blind fun m hm => resolve_blind hm entry).bind fun w₁ _ _ _ _ => ?_
  refine (Tallies.forM _ fun w' _ decl _ => .isolate (run_blind fun m hm => method_blind hm decl)).bind ?_
  exact fun w₂ _ _ _ _ => .forM _ fun w' _ entry _ => checkFinite_blind entry

end ResolveM

/-! ### Collecting names -/

/-- From packages that correspond, a change leads to packages that do. -/
def InStep (c : Rerun) (change : Package → Package) : Prop :=
  ∀ w pkg pkg', Pairs c.start c.base w pkg pkg' → ∃ w', Pairs c.start c.base w' (change pkg) (change pkg')

namespace InStep

theorem refl : InStep c fun pkg => pkg :=
  fun w _ _ h => ⟨w, h⟩

theorem foldl {α : Type} {change : Package → α → Package} {xs : List α} (h : ∀ x ∈ xs, InStep c (change · x)) :
    InStep c (xs.foldl change ·) := by
  intro w pkg pkg' hpkg
  induction xs generalizing w pkg pkg' with
  | nil => exact ⟨w, hpkg⟩
  | cons x xs ih =>
      obtain ⟨w', hpkg'⟩ := h x List.mem_cons_self w pkg pkg' hpkg
      exact ih (fun y hy => h y (List.mem_cons_of_mem x hy)) w' _ _ hpkg'

theorem report (node : NodeId) (cause : SemanticFault) : InStep c fun pkg => pkg.report c.file node cause :=
  fun w _ _ h => ⟨w, h.report c.file node cause⟩

theorem declare (role : Role) (spec node : NodeId) : InStep c fun pkg => pkg.declare c.file role spec node := by
  intro w pkg pkg' hpkg
  have hentered {w : World} {pkg pkg' : Package} {typ typ' : Option TypeId} (hpkg : Pairs c.start c.base w pkg pkg')
      (htyp : Option.Rel w.Twin typ typ') :
      let name := c.file.tree.literal node
      let entry : Entry := { name := node, spec, role }
      let anonymous := name == "_" || (role = .function && name == "init")
      Pairs c.start c.base w
        (if !anonymous && pkg.isTaken name then pkg.report c.file node (.redeclared name)
          else (pkg.enter anonymous entry { name, role, typ, decl := some spec }).schedule entry)
        (if !anonymous && pkg'.isTaken name then pkg'.report c.file node (.redeclared name)
          else (pkg'.enter anonymous entry { name, role, typ := typ', decl := some spec }).schedule entry) := by
    intro name entry anonymous
    rw [hpkg.isTaken_eq]
    split
    · exact hpkg.report _ _ _
    · exact (hpkg.enter _ _ ⟨typ', htyp, rfl⟩).schedule _
  unfold Package.declare
  split
  · exact ⟨w, hpkg⟩
  · split
    · obtain ⟨w', hpkg', ht⟩ := hpkg.newType (c.file.tree.literal node)
      exact ⟨w', hentered hpkg' (.some ht)⟩
    · exact ⟨w, hentered hpkg .none⟩

theorem declareImport (spec : NodeId) : InStep c fun pkg => pkg.declareImport c.file spec := by
  intro w pkg pkg' hpkg
  unfold Package.declareImport
  split
  · exact ⟨w, hpkg⟩
  · split
    · exact ⟨w, hpkg⟩
    · dsimp only
      rw [hpkg.isTaken_eq]
      split
      · exact ⟨w, hpkg.report _ _ _⟩
      · exact ⟨w, hpkg.enter _ _ ⟨none, .none, rfl⟩⟩

theorem declareType (spec : NodeId) : InStep c fun pkg => pkg.declareType c.file spec := by
  unfold Package.declareType
  split
  · exact .refl
  · split
    · exact declare _ _ _
    · exact report _ _
    · exact .refl

theorem declareValues (role : Role) (spec : NodeId) : InStep c fun pkg => pkg.declareValues c.file role spec := by
  unfold Package.declareValues
  split
  · exact .refl
  · split
    · exact .refl
    · exact foldl fun name _ => declare _ _ _

theorem declareFunction (decl : NodeId) : InStep c fun pkg => pkg.declareFunction c.file decl := by
  unfold Package.declareFunction
  split
  · exact .refl
  · split
    · exact declare _ _ _
    · exact report _ _
    · exact .refl

theorem collect (decl : NodeId) : InStep c fun pkg => pkg.collect c.file decl := by
  unfold Package.collect
  dsimp only
  split
  · exact .refl
  · split
    · exact foldl fun spec _ => declareImport spec
    · exact foldl fun spec _ => declareValues .constant spec
    · exact foldl fun spec _ => declareValues .variable spec
    · exact foldl fun spec _ => declareType spec
    · exact declareFunction decl
    · exact .refl

end InStep

/-- A file is resolved alike in packages whose types correspond, and whose universes do. -/
theorem resolveDecls_blind (decls : List NodeId) {pkg pkg' : Package}
    (htypes : Matches c.start c.base w pkg.types pkg'.types) (houter : List.Forall₂ w.TwinObject pkg.outer pkg'.outer) :
    (pkg'.resolveDecls c.file decls).1 = (pkg.resolveDecls c.file decls).1 ∧
      ∃ w', Pairs c.start c.base w' (pkg.resolveDecls c.file decls).2 (pkg'.resolveDecls c.file decls).2 := by
  have hreset : Pairs c.start c.base w (pkg.reset (Package.pathOf c.file.tree decls))
      (pkg'.reset (Package.pathOf c.file.tree decls)) :=
    ⟨htypes, houter, rfl, rfl, rfl, fun _ => .none, rfl, rfl⟩
  obtain ⟨w₁, hcollected⟩ := InStep.foldl (fun decl _ => InStep.collect decl) w _ _ hreset
  obtain ⟨w₂, -, hpkg, hagree⟩ :=
    ResolveM.resolveAll_blind (decls.filter (Package.isMethod c.file.tree)) _ _ hcollected
  exact ⟨hagree.eq, w₂, hpkg⟩

end GoSource
