import GoSource.Proofs.Package.Soundness

/-!
# The rules answer with what is expressed

Every rule of resolution answers with the type that its node signifies, or with nothing or the invalid type if
something is wrong with the file.  Values are answered with their types, and constants with values that fit these.

* **`Meanings.Honest`**: the questions through which declarations refer to one another, in sane packages.
* One lemma for each rule of types and values: **`Meanings.typeExpr_yields`**, **`Meanings.constantExpr_yields`** and
  **`Meanings.valueExpr_yields`** put them together.
-/

namespace GoSource

open TypeTable

/-- The answer to the question which type a value has, if a look at it is enough. -/
def ValueAnswers (file : ParsedFile) (start : TypeTable) (id : NodeId) (o : Option TypeId) (pkg : Package) : Prop :=
  ∀ t, o = some t → HasType file start id t pkg

/-- Meanings that answer with what the file says. -/
structure Meanings.Honest (file : ParsedFile) (start : TypeTable) (m : Meanings) : Prop where
  type : ∀ id, Yields file start [] (fun _ => True) (m.type id) (Answers file start id)
  constant : ∀ id, Yields file start [] (fun _ => True) (m.constant id) (Evaluates file start id)
  value : ∀ id, Yields file start [] (fun _ => True) (m.value id) (ValueAnswers file start id)
  declaration : ∀ entry : Entry, entry.Fits file →
    Yields file start [] (fun _ => True) (m.declaration entry) fun _ _ => True

variable {file : ParsedFile} {start : TypeTable} {own : List NodeId} {id : NodeId} {P : Package → Prop}
  {pkg pkg' : Package} {t : TypeId}

/-! ### Names -/

namespace Package.Sane

variable {name : String} {obj : Object}

/-- What is known about the entity that a name stands for. -/
theorem lookup_cases (h : pkg.Sane file start) (hobj : pkg.lookup name = some obj) :
    (∃ entry : Entry, entry.Fits file ∧ pkg.objects.get? entry.name = some obj) ∨ obj ∈ pkg.outer := by
  rw [lookup] at hobj
  cases hentry : pkg.declared? name with
  | some entry =>
      rw [hentry] at hobj
      exact .inl ⟨entry, h.toOrderly.declared name entry hentry, hobj⟩
  | none =>
      rw [hentry] at hobj
      exact .inr (List.mem_of_find?_eq_some hobj)

theorem knows_of_lookup (h : pkg.Sane file start) (hobj : pkg.lookup name = some obj) : KnownIfSome obj.typ pkg := by
  obtain ⟨entry, -, hobj⟩ | houter := h.lookup_cases hobj
  · exact fun t ht => h.known _ obj t hobj ht
  · exact h.predeclared obj houter

theorem valued_of_lookup (h : pkg.Sane file start) (hobj : pkg.lookup name = some obj) (hrole : obj.role = .constant) :
    obj.Valued pkg.types := by
  obtain ⟨entry, hentry, hobj⟩ | houter := h.lookup_cases hobj
  · have hformed := h.formed entry hentry obj hobj
    exact hformed.constant (hformed.role_eq.symm.trans hrole)
  · exact (h.furnished obj houter).constant hrole

/-- A type expression signifies a type that the table knows. -/
theorem knows_of_signifies (h : pkg.Sane file start) (ht : Signifies file start pkg id t) : pkg.types.Knows t :=
  (h.backed ht.backed).1

end Package.Sane

theorem durable_declared? (name : String) (o : Option Entry) : Durable file own fun pkg => pkg.declared? name = o := by
  intro pkg pkg' _ honto h
  rw [Package.declared?, honto.onward.steady.scope_eq]
  exact h

namespace Meanings

variable {m : Meanings} (hm : m.Honest file start)
include hm

omit hm in
theorem predeclared_yields (name : String) (hP : ∀ pkg, P pkg → pkg.declared? name = none) :
    Yields file start own P
      (do
        match (← get).predeclared? name with
        | some obj => return obj
        | none => ResolveM.fail id (.undefined name))
      fun obj pkg => pkg.lookup name = some obj := by
  refine .get fun q _ hq => ?_
  cases hfind : q.predeclared? name with
  | none => exact .fail rfl
  | some obj =>
      refine .pure ?_
      rintro pkg - ⟨hpkg, rfl⟩
      rw [Package.lookup, hP pkg hpkg]
      exact hfind

theorem object_yields (id : NodeId) :
    Yields file start [] P (m.object id) fun obj pkg => pkg.lookup (file.tree.literal id) = some obj := by
  refine .any (.tree (.check rfl fun _ => .get fun q hq _ => ?_))
  cases hentry : q.declared? (file.tree.literal id) with
  | none =>
      refine predeclared_yields _ ?_
      rintro pkg ⟨-, rfl⟩
      exact hentry
  | some entry =>
      have hfits := hq.toOrderly.declared _ entry hentry
      refine Yields.pre (P := fun pkg => pkg.declared? (file.tree.literal id) = some entry) ?_ ?_
      · refine (hm.declaration entry hfits).any.bind (durable_declared? _ _) fun _ => .get fun q' hq' h => ?_
        obtain ⟨obj, hobj⟩ := Option.isSome_iff_exists.1 (hq'.present _ entry h.1)
        rw [hobj]
        refine .pure ?_
        rintro pkg - ⟨⟨hdeclared, -⟩, rfl⟩
        rw [Package.lookup, hdeclared]
        exact hobj
      · rintro pkg - ⟨-, rfl⟩
        exact hentry

theorem typeName_yields (hop : file.tree.op id = .lit .ident) :
    Yields file start [] P (m.typeName id) (Answers file start id) := by
  refine .any ((object_yields hm id).bind durable_true fun obj => .check rfl fun hrole => ?_)
  cases htyp : obj.typ with
  | none => exact .fail rfl
  | some t =>
      refine .pure fun pkg hsane h => ⟨.named h.2 (Decidable.of_not_not hrole) htyp, fun hvalid => ?_⟩
      exact (TypeRule.name hop h.2 (Decidable.of_not_not hrole) htyp).signifies hsane hvalid (by simp [hop])
        (by simp [hop])

/-! ### Parts -/

omit hm in
/-- What is found for something is as `D` says, and if nothing is found, then something is wrong. -/
def Found {α : Type} (file : ParsedFile) (D : α → Package → Prop) (o : Option α) (pkg : Package) : Prop :=
  (∀ x, o = some x → D x pkg) ∧ (o = none → pkg.Flawed file)

omit hm in
theorem found_none {α : Type} {D : α → Package → Prop} (hflawed : pkg.Flawed file) : Found file D none pkg :=
  ⟨nofun, fun _ => hflawed⟩

omit hm in
theorem found_some {α : Type} {D : α → Package → Prop} {x : α} (h : D x pkg) : Found file D (some x) pkg := by
  refine ⟨?_, nofun⟩
  rintro y ⟨⟩
  exact h

omit hm in
theorem durable_found {α : Type} {D : α → Package → Prop} (hD : ∀ x, Durable file own (D x)) (o : Option α) :
    Durable file own (Found file D o) :=
  (durable_forall fun x => (hD x).imp).and durable_flawed.imp

omit hm in
/-- A part signifies a type. -/
def PartSignifies (file : ParsedFile) (start : TypeTable) (id : NodeId) (place : Nat) (t : TypeId) (pkg : Package) :
    Prop :=
  ∃ c, file.tree.part? id place = some c ∧ Signifies file start pkg c t

omit hm in
theorem durable_part (id : NodeId) (place : Nat) (t : TypeId) :
    Durable file own (PartSignifies file start id place t) :=
  durable_exists fun c => (durable_const _).and (durable_signifies c t)

omit hm in
/-- An answer that is not known to be invalid is what is signified; any other has a reason. -/
theorem found_of_answers {x : NodeId} (hsane : pkg.Sane file start) (h : Answers file start x t pkg) :
    (pkg.types.isInvalid t = true → pkg.Flawed file) ∧
      (pkg.types.isInvalid t = false → Signifies file start pkg x t) :=
  ⟨(hsane.backed h.backed).2.2, fun hvalid => h.signifies (hsane.ne_invalid_of_valid hvalid)⟩

theorem component_yields (id : NodeId) (place : Nat) :
    Yields file start [] P (m.component id place) (Found file (PartSignifies file start id place)) := by
  refine .any (.part fun c hc => (hm.type c).bind durable_true fun t => .types fun tt => .pure ?_)
  rintro pkg hsane ⟨⟨-, hanswers⟩, rfl⟩
  obtain ⟨hflawed, hsignifies⟩ := found_of_answers hsane hanswers
  cases hinvalid : pkg.types.isInvalid t with
  | true => exact found_none (hflawed hinvalid)
  | false => exact found_some ⟨c, hc, hsignifies hinvalid⟩

omit hm in
/-- The type that a type expression signifies, if it is found. -/
abbrev TypeFound (file : ParsedFile) (start : TypeTable) (id : NodeId) (o : Option TypeId) (pkg : Package) : Prop :=
  Found file (fun t pkg => Signifies file start pkg id t) o pkg

omit hm in
/-- A type that is built of others, which is never refused. -/
theorem build_yields {s : Shape} (op : Operation) (hop : ∀ tt, op.run tt = (intern s tt).2)
    (hhandles : op.handles = s.components) (hbuilt : s.isDeclared = false) (hP : Durable file [] P)
    (hparts : ∀ pkg, pkg.Sane file start → P pkg → ∀ part ∈ s.components, pkg.types.Knows part) :
    Yields file start [] P (ResolveM.build (intern s)) fun t pkg => P pkg ∧ pkg.types.shape t = s := by
  refine .build fun pkg hsane hpkg => .interned s op rfl (hop pkg.types) ?_ hbuilt (hparts pkg hsane hpkg) ?_
  · rw [hhandles]
    exact hparts pkg hsane hpkg
  · exact fun pkg' t _ honto hs => ⟨hP hsane.toOrderly honto hpkg, hs⟩

theorem pointerType?_yields (hop : file.tree.op id = .op .mul) :
    Yields file start [] P (m.pointerType? id) (TypeFound file start id) := by
  refine .any ((component_yields hm id 0).bind durable_true fun o => ?_)
  cases o with
  | none => exact .pure fun pkg _ h => found_none (h.2.2 rfl)
  | some elem =>
      refine Yields.pre (P := PartSignifies file start id 0 elem) ?_ fun _ _ h => h.2.1 elem rfl
      refine (build_yields (.pointer elem) (fun _ => rfl) rfl rfl (durable_part id 0 elem) ?_).map ?_
      · rintro pkg hsane ⟨c, -, he⟩
        simpa [Shape.components] using hsane.knows_of_signifies he
      · rintro t pkg hsane ⟨⟨c, hc, he⟩, hs⟩
        exact found_some ((TypeRule.pointer hop hc he hs).signifies hsane (hsane.ne_invalid hs (by simp))
          (by simp [hop]) (by simp [hop]))

theorem chanType?_yields {dir : ChanDir} (hop : chanDir? (file.tree.op id) = some dir) :
    Yields file start [] P (m.chanType? id dir) (TypeFound file start id) := by
  refine .any ((component_yields hm id 0).bind durable_true fun o => ?_)
  cases o with
  | none => exact .pure fun pkg _ h => found_none (h.2.2 rfl)
  | some elem =>
      refine Yields.pre (P := PartSignifies file start id 0 elem) ?_ fun _ _ h => h.2.1 elem rfl
      refine (build_yields (.chan elem dir) (fun _ => rfl) rfl rfl (durable_part id 0 elem) ?_).map ?_
      · rintro pkg hsane ⟨c, -, he⟩
        simpa [Shape.components] using hsane.knows_of_signifies he
      · rintro t pkg hsane ⟨⟨c, hc, he⟩, hs⟩
        have hne (token : Token) (htoken : chanDir? token = none) : file.tree.op id ≠ token := by
          rintro rfl
          cases hop.symm.trans htoken
        exact found_some ((TypeRule.chan hop hc he hs).signifies hsane (hsane.ne_invalid hs (by simp)) (hne _ rfl)
          (hne _ rfl))

theorem mapType?_yields (hop : file.tree.op id = .kw .map) :
    Yields file start [] P (m.mapType? id) (TypeFound file start id) := by
  have hfound (place : Nat) (o : Option TypeId) : Durable file [] (Found file (PartSignifies file start id place) o) :=
    durable_found (durable_part id place) o
  refine .any ((component_yields hm id 0).bind durable_true fun key? => ?_)
  refine (component_yields hm id 1).bind (durable_true.and (hfound 0 key?)) fun elem? => ?_
  cases key? with
  | none => exact .pure fun pkg _ h => found_none (h.1.2.2 rfl)
  | some key =>
      cases elem? with
      | none => exact .pure fun pkg _ h => found_none (h.2.2 rfl)
      | some elem =>
          refine Yields.pre
            (P := fun pkg => PartSignifies file start id 0 key pkg ∧ PartSignifies file start id 1 elem pkg) ?_
            fun _ _ h => ⟨h.1.2.1 key rfl, h.2.1 elem rfl⟩
          have hparts : Durable file [] fun pkg =>
              PartSignifies file start id 0 key pkg ∧ PartSignifies file start id 1 elem pkg :=
            (durable_part id 0 key).and (durable_part id 1 elem)
          refine (build_yields (.map key elem) (fun _ => rfl) rfl rfl hparts ?_).map ?_
          · rintro pkg hsane ⟨⟨c, -, hk⟩, c', -, he⟩
            simpa [Shape.components] using ⟨hsane.knows_of_signifies hk, hsane.knows_of_signifies he⟩
          · rintro t pkg hsane ⟨⟨⟨c, hc, hk⟩, c', hc', he⟩, hs⟩
            exact found_some ((TypeRule.map hop hc hk hc' he hs).signifies hsane (hsane.ne_invalid hs (by simp))
              (by simp [hop]) (by simp [hop]))

/-! ### Arrays -/

theorem lengthLiteral_yields (id : NodeId) :
    Yields file start [] P (m.lengthLiteral id) fun literal pkg =>
      ∀ n, Literal.integerValue? literal = some n → Counts file pkg id n := by
  refine .any (.tree ?_)
  split
  · next hop => exact .pure fun _ _ _ n hn => .literal hop hn
  · exact .fail rfl
  · next hop =>
      refine (object_yields hm id).bind durable_true fun obj => ?_
      split
      · next v hrole hv =>
          exact .ite (fun _ => .pure fun _ _ h n hn => .constant hop h.2 hrole hv hn) fun _ => .fail rfl
      · exact .fail rfl
  · exact .fail rfl

theorem arrayLength_yields (id : NodeId) :
    Yields file start [] P (m.arrayLength id) fun n pkg => Counts file pkg id n := by
  refine .any ((lengthLiteral_yields hm id).bind durable_true fun literal => ?_)
  cases hn : Literal.integerValue? literal with
  | none => exact .fail rfl
  | some n => exact .pure fun _ _ h => h.2 n rfl

omit hm in
/-- An array of a certain length, or a slice. -/
theorem buildArray_yields (hop : file.tree.op id = .tag .array) (elem? : Option TypeId) (length? : Option Nat) :
    Yields file start []
      (fun pkg => Found file (PartSignifies file start id 1) elem? pkg ∧
        match length? with
        | some n => ∃ length, file.tree.part? id 0 = some length ∧ Counts file pkg length n
        | none => file.tree.part? id 0 = none)
      (match elem?, length? with
      | some elem, some length => some <$> ResolveM.buildAt id (TypeTable.newArray elem length)
      | some elem, none => some <$> ResolveM.build (TypeTable.newSlice elem)
      | none, _ => return none)
      (TypeFound file start id) := by
  cases elem? with
  | none => exact .pure fun pkg _ h => found_none (h.1.2 rfl)
  | some elem =>
      cases length? with
      | none =>
          refine Yields.pre (P := fun pkg => PartSignifies file start id 1 elem pkg ∧ file.tree.part? id 0 = none) ?_
            fun _ _ h => ⟨h.1.1 elem rfl, h.2⟩
          have hparts : Durable file [] fun pkg =>
              PartSignifies file start id 1 elem pkg ∧ file.tree.part? id 0 = none :=
            (durable_part id 1 elem).and (durable_const _)
          refine (build_yields (.slice elem) (fun _ => rfl) rfl rfl hparts ?_).map ?_
          · rintro pkg hsane ⟨⟨c, -, he⟩, -⟩
            simpa [Shape.components] using hsane.knows_of_signifies he
          · rintro t pkg hsane ⟨⟨⟨c, hc, he⟩, hlength⟩, hs⟩
            exact found_some ((TypeRule.slice hop hlength hc he hs).signifies hsane (hsane.ne_invalid hs (by simp))
              (by simp [hop]) (by simp [hop]))
      | some n =>
          refine Yields.map (Q := fun t pkg => Signifies file start pkg id t) (.buildAt fun pkg hsane hpkg => ?_)
            fun _ _ _ h => found_some h
          obtain ⟨⟨hfound, -⟩, length, hlength, hn⟩ := hpkg
          obtain ⟨c, hc, he⟩ := hfound elem rfl
          have hknown := hsane.knows_of_signifies he
          refine .interned (.array elem n) (.array elem n) rfl rfl ?_ rfl ?_ fun pkg' t hsane' honto hs => ?_
          · simpa [Operation.handles] using hknown
          · simpa [Shape.components] using hknown
          · have hretains := honto.retains hsane.toOrderly
            exact (TypeRule.array hop hlength (hn.later hretains) hc (he.later hretains) hs).signifies hsane'
              (hsane'.ne_invalid hs (by simp)) (by simp [hop]) (by simp [hop])

theorem arrayType?_yields (hop : file.tree.op id = .tag .array) :
    Yields file start [] P (m.arrayType? id) (TypeFound file start id) := by
  have hfound (o : Option TypeId) : Durable file [] (Found file (PartSignifies file start id 1) o) :=
    durable_found (durable_part id 1) o
  refine .any ((component_yields hm id 1).bind durable_true fun elem? => .tree ?_)
  cases hpart : file.tree.part? id 0 with
  | none => exact (buildArray_yields hop elem? none).pre fun _ _ h => ⟨h.2, hpart⟩
  | some length =>
      have hlength : Yields file start [] (fun pkg => True ∧ Found file (PartSignifies file start id 1) elem? pkg)
          (some <$> m.arrayLength length) fun o pkg => ∃ n, o = some n ∧ Counts file pkg length n :=
        (arrayLength_yields hm length).map fun n _ _ h => ⟨n, rfl, h⟩
      refine hlength.bind (durable_true.and (hfound elem?)) fun o => ?_
      refine (buildArray_yields hop elem? o).pre ?_
      rintro pkg - ⟨⟨-, helem⟩, n, rfl, hn⟩
      exact ⟨helem, length, hpart, hn⟩

/-! ### Functions -/

omit hm in
/-- The types of the parameters that a field declares, if all of them are valid. -/
structure FieldFound (file : ParsedFile) (start : TypeTable) (field : NodeId) (x : List TypeId × Bool)
    (pkg : Package) : Prop where
  knows : ∀ t ∈ x.1, pkg.types.Knows t
  backed : ∀ t ∈ x.1, Backed file pkg t
  rule : (∀ t ∈ x.1, pkg.types.isInvalid t = false) → FieldRule file pkg (Signifies file start pkg) field x

omit hm in
theorem durable_fieldFound (field : NodeId) (x : List TypeId × Bool) :
    Durable file own (FieldFound file start field x) := by
  intro pkg pkg' horderly honto h
  have hretains := honto.retains horderly
  have hgrows := honto.grows horderly
  refine ⟨fun t ht => hgrows.knows (h.knows t ht), fun t ht => (h.backed t ht).later hretains, fun hvalid => ?_⟩
  refine (h.rule fun t ht => ?_).later hretains fun _ _ hx => hx.later hretains
  by_contra hinvalid
  have hstays := hgrows.isInvalid_after horderly.regular.toSound (h.knows t ht) (by simpa using hinvalid)
  rw [hvalid t ht] at hstays
  cases hstays

omit hm in
/-- Fields, one by one. -/
abbrev FieldsFound (file : ParsedFile) (start : TypeTable) (fields : List NodeId) (xs : List (List TypeId × Bool))
    (pkg : Package) : Prop :=
  List.Forall₂ (fun field x => FieldFound file start field x pkg) fields xs

omit hm in
theorem durable_fieldsFound (fields : List NodeId) (xs : List (List TypeId × Bool)) :
    Durable file own (FieldsFound file start fields xs) :=
  fun _ _ horderly honto h => h.imp fun field x hx => durable_fieldFound field x horderly honto hx

omit hm in
theorem FieldsFound.of_mem {fields : List NodeId} {xs : List (List TypeId × Bool)}
    (h : FieldsFound file start fields xs pkg)
    (ht : t ∈ xs.flatMap Prod.fst) : pkg.types.Knows t ∧ Backed file pkg t := by
  induction h with
  | nil => cases ht
  | cons hfirst _ ih =>
      obtain ht | ht := List.mem_append.1 ht
      · exact ⟨hfirst.knows t ht, hfirst.backed t ht⟩
      · exact ih ht

omit hm in
theorem FieldsFound.rules {fields : List NodeId} {xs : List (List TypeId × Bool)}
    (h : FieldsFound file start fields xs pkg)
    (hvalid : ∀ t ∈ xs.flatMap Prod.fst, pkg.types.isInvalid t = false) :
    List.Forall₂ (FieldRule file pkg (Signifies file start pkg)) fields xs := by
  induction h with
  | nil => exact .nil
  | cons hfirst _ ih =>
      exact .cons (hfirst.rule fun t ht => hvalid t (List.mem_append_left _ ht))
        (ih fun t ht => hvalid t (List.mem_append_right _ ht))

theorem fieldTypes_yields (final : Bool) (field : NodeId) :
    Yields file start [] P (m.fieldTypes final field) fun x pkg =>
      (x.2 = true → final = true) ∧ FieldFound file start field x pkg := by
  refine .any (.tree (.part fun typ htyp => .ite (fun hop => .check rfl fun hplace => .part fun elem helem => ?_)
    fun hop => ?_))
  · have hfinal : final = true := by simp_all
    refine (hm.type elem).any.bind durable_true fun e => .types fun tt => ?_
    refine .ite (fun hinvalid => .pure ?_) fun hvalid => ?_
    · rintro pkg hsane ⟨⟨-, he⟩, rfl⟩
      refine ⟨fun _ => hfinal, fun t ht => ?_, fun t ht => ?_, fun hvalid => ?_⟩
      · rw [List.mem_singleton.1 ht]
        exact (hsane.backed he.backed).1
      · rw [List.mem_singleton.1 ht]
        exact he.backed
      · rw [hvalid e (List.mem_singleton_self e)] at hinvalid
        cases hinvalid
    · refine Yields.pre (P := fun pkg => Signifies file start pkg elem e) ?_ ?_
      · refine (build_yields (.slice e) (fun _ => rfl) rfl rfl (durable_signifies elem e) ?_).bind
          (durable_signifies elem e) fun s => .pure ?_
        · intro pkg hsane he
          simpa [Shape.components] using hsane.knows_of_signifies he
        · rintro pkg hsane ⟨-, he, hs⟩
          have hbacked : Backed file pkg s := .of_shape hs (by simp [Shape.kind])
          refine ⟨fun _ => hfinal, fun t ht => ?_, fun t ht => ?_, fun _ => .variadic htyp hop helem he hs⟩
          · rw [List.mem_singleton.1 ht]
            exact (hsane.backed hbacked).1
          · rw [List.mem_singleton.1 ht]
            exact hbacked
      · rintro pkg hsane ⟨⟨-, he⟩, rfl⟩
        exact (found_of_answers hsane he).2 (by simpa using hvalid)
  · refine (hm.type typ).any.bind durable_true fun t => .pure ?_
    rintro pkg hsane ⟨-, ht⟩
    refine ⟨by rintro ⟨⟩, fun u hu => ?_, fun u hu => ?_,
      fun hvalid => .plain htyp hop List.length_replicate fun u hu => ?_⟩
    · rw [List.eq_of_mem_replicate hu]
      exact (hsane.backed ht.backed).1
    · rw [List.eq_of_mem_replicate hu]
      exact ht.backed
    · have hvalid := hvalid u hu
      rw [List.eq_of_mem_replicate hu] at hvalid ⊢
      exact (found_of_answers hsane ht).2 hvalid

/-- Only the last field may be variadic. -/
theorem fieldListTypes_yields (mayBeVariadic : Bool) (fields : List NodeId) :
    Yields file start [] P (m.fieldListTypes mayBeVariadic fields) fun x pkg =>
      ∃ xs, x = (xs.flatMap Prod.fst, xs.any Prod.snd) ∧ (∀ x ∈ xs.dropLast, x.2 = false) ∧
        FieldsFound file start fields xs pkg := by
  refine .any ?_
  induction fields with
  | nil => exact .pure fun _ _ _ => ⟨[], rfl, nofun, .nil⟩
  | cons field rest ih =>
      refine (fieldTypes_yields hm _ field).bind durable_true fun first => ?_
      refine ih.any.bind (durable_true.and ((durable_const _).and (durable_fieldFound field first))) fun others =>
        .pure ?_
      rintro pkg - ⟨⟨-, hfinal, hfirst⟩, xs, rfl, hlast, hrest⟩
      refine ⟨first :: xs, rfl, fun x hx => ?_, .cons hfirst hrest⟩
      cases hrest with
      | nil => cases hx
      | cons =>
          rw [List.dropLast_cons_cons] at hx
          obtain rfl | hx := List.mem_cons.1 hx
          · -- Another field follows.
            by_contra hvariadic
            cases (Bool.and_eq_true_iff.1 (hfinal (by simpa using hvariadic))).2
          · exact hlast x hx

theorem signature?_yields (id : NodeId) :
    Yields file start [] P (m.signature? id)
      (Found file fun t pkg => SignatureSignifies file start pkg id t) := by
  have hlist (place : Nat) (x : List TypeId × Bool) : Durable file [] fun pkg =>
      ∃ xs, x = (xs.flatMap Prod.fst, xs.any Prod.snd) ∧ (∀ x ∈ xs.dropLast, x.2 = false) ∧
        FieldsFound file start (file.tree.fields (file.tree.part? id place)) xs pkg :=
    durable_exists fun xs => (durable_const _).and ((durable_const _).and (durable_fieldsFound _ xs))
  refine .any (.tree ((fieldListTypes_yields hm true (file.tree.fields (file.tree.part? id 0))).bind durable_true
    fun params => ?_))
  refine (fieldListTypes_yields hm false (file.tree.fields (file.tree.part? id 1))).bind
    (durable_true.and (hlist 0 params)) fun results => .types fun tt => .ite (fun hinvalid => .pure ?_) fun hvalid => ?_
  · rintro pkg hsane ⟨⟨⟨-, ps, rfl, -, hps⟩, rs, rfl, -, hrs⟩, rfl⟩
    obtain ⟨t, ht, hinvalid⟩ := List.any_eq_true.1 hinvalid
    refine found_none ?_
    obtain ht | ht := List.mem_append.1 ht
    · exact (hsane.backed (hps.of_mem ht).2).2.2 hinvalid
    · exact (hsane.backed (hrs.of_mem ht).2).2.2 hinvalid
  · refine Yields.map (Q := fun t pkg => SignatureSignifies file start pkg id t)
      (.buildAt fun pkg hsane hpkg => ?_) fun _ _ _ h => found_some h
    obtain ⟨⟨⟨-, ps, rfl, hlast, hps⟩, rs, rfl, -, hrs⟩, rfl⟩ := hpkg
    have hvalid (t : TypeId) (ht : t ∈ ps.flatMap Prod.fst ++ rs.flatMap Prod.fst) :
        pkg.types.isInvalid t = false := by
      by_contra hinvalid
      exact hvalid (List.any_eq_true.2 ⟨t, ht, by simpa using hinvalid⟩)
    have hknown (t : TypeId) (ht : t ∈ ps.flatMap Prod.fst ++ rs.flatMap Prod.fst) : pkg.types.Knows t :=
      (List.mem_append.1 ht).elim (fun ht => (hps.of_mem ht).1) fun ht => (hrs.of_mem ht).1
    obtain ⟨-, -, hrun⟩ | ⟨-, hrun⟩ := newFunc_cases (ps.flatMap Prod.fst) (rs.flatMap Prod.fst) (ps.any Prod.snd)
      pkg.types
    · exact .refused hrun
    · refine .interned (.func _ _ _) (.func _ _ _) hrun rfl hknown rfl hknown fun pkg' t _ honto hs => ?_
      have hretains := honto.retains hsane.toOrderly
      have hparams := hps.rules fun t ht => hvalid t (List.mem_append_left _ ht)
      have hresults := hrs.rules fun t ht => hvalid t (List.mem_append_right _ ht)
      refine ⟨.intro (hparams.imp fun _ _ h => h.later hretains fun _ _ hx => hx.later hretains)
        (hresults.imp fun _ _ h => h.later hretains fun _ _ hx => hx.later hretains) hs, ?_⟩
      rw [hs]
      exact (FieldRule.spreads hparams hlast _).later hretains.extends_types

/-! ### Interfaces -/

theorem embedded?_yields (typ : NodeId) : Yields file start [] P (m.embedded? typ) (TypeFound file start typ) := by
  refine .any (.tree (.check rfl fun _ => (hm.type typ).any.bind durable_true fun t => .types fun tt => ?_))
  refine .check rfl fun _ => .ite (fun hinvalid => .pure ?_) fun hvalid => .check rfl fun _ => .pure ?_
  · rintro pkg hsane ⟨⟨-, ht⟩, rfl⟩
    exact found_none ((found_of_answers hsane ht).1 hinvalid)
  · rintro pkg hsane ⟨⟨-, ht⟩, rfl⟩
    exact found_some ((found_of_answers hsane ht).2 (by simpa using hvalid))

theorem member?_yields (field : NodeId) :
    Yields file start [] P (m.member? field)
      (Found file fun member pkg => MemberSignifies file start pkg field member) := by
  refine .any (.tree (.part fun typ htyp => ?_))
  cases hnames : file.tree.part? field 0 with
  | none =>
      refine (embedded?_yields hm typ).map fun o pkg _ h => ?_
      cases o with
      | none => exact found_none (h.2 rfl)
      | some t => exact found_some ⟨.embedded htyp hnames (h.1 t rfl), nofun⟩
  | some names =>
      refine .part fun name hname => (signature?_yields hm typ).bind durable_true fun o => ?_
      cases o with
      | none => exact .pure fun pkg _ h => found_none (h.2.2 rfl)
      | some t =>
          refine .get fun q _ _ => .pure ?_
          rintro pkg - ⟨⟨-, hfound⟩, rfl⟩
          obtain ⟨hrule, hspreads⟩ := hfound.1 t rfl
          refine found_some ⟨.method htyp hnames hname hrule, ?_⟩
          rintro _ ⟨⟩
          exact hspreads

theorem members?_yields (fields : List NodeId) :
    Yields file start [] P (m.members? fields)
      (Found file fun members pkg => List.Forall₂ (MemberSignifies file start pkg) fields members) := by
  refine .any ?_
  induction fields with
  | nil => exact .pure fun _ _ _ => found_some .nil
  | cons field rest ih =>
      have hfirst (member : Member) : Durable file [] fun pkg => MemberSignifies file start pkg field member :=
        fun _ _ horderly honto h => h.later (honto.retains horderly)
      refine (member?_yields hm field).bind durable_true fun o => ?_
      cases o with
      | none => exact .pure fun pkg _ h => found_none (h.2.2 rfl)
      | some first =>
          refine Yields.pre (P := fun pkg => MemberSignifies file start pkg field first) ?_
            fun _ _ h => h.2.1 first rfl
          refine ih.any.bind (hfirst first) fun others => .pure ?_
          rintro pkg - ⟨hmember, hrest⟩
          cases others with
          | none => exact found_none (hrest.2 rfl)
          | some others => exact found_some (.cons hmember (hrest.1 others rfl))

omit hm in
/-- The types of the members of an interface are known. -/
theorem knows_of_members {fields : List NodeId} {members : List Member} (hsane : pkg.Sane file start)
    (h : List.Forall₂ (MemberSignifies file start pkg) fields members) :
    ∀ t ∈ embeddedOf members ++ (methodsOf members).map Method.typ, pkg.types.Knows t := by
  induction h with
  | nil => exact fun t ht => absurd ht List.not_mem_nil
  | cons hfirst _ ih =>
      intro t ht
      cases hfirst.rule with
      | method _ _ _ hsignature =>
          obtain ht | ht := List.mem_append.1 ht
          · exact ih t (List.mem_append_left _ ht)
          · obtain rfl | ht := List.mem_cons.1 ht
            · exact (hsane.backed hsignature.backed).1
            · exact ih t (List.mem_append_right _ ht)
      | embedded _ _ hsignifies =>
          obtain ht | ht := List.mem_append.1 ht
          · obtain rfl | ht := List.mem_cons.1 ht
            · exact hsane.knows_of_signifies hsignifies
            · exact ih t (List.mem_append_left _ ht)
          · exact ih t (List.mem_append_right _ ht)

theorem interfaceType?_yields (hop : file.tree.op id = .kw .interface) :
    Yields file start [] P (m.interfaceType? id) (TypeFound file start id) := by
  refine .any (.tree ((members?_yields hm (file.tree.fields (some id))).bind durable_true fun o => ?_))
  cases o with
  | none => exact .pure fun pkg _ h => found_none (h.2.2 rfl)
  | some members =>
      refine Yields.map (Q := fun t pkg => Signifies file start pkg id t) (.buildAt fun pkg hsane hpkg => ?_)
        fun _ _ _ h => found_some h
      have hmembers := hpkg.2.1 members rfl
      have hknown := knows_of_members hsane hmembers
      obtain ⟨fault, hrun⟩ | ⟨ms, hmerge, hrun⟩ := newInterface_cases (embeddedOf members) (methodsOf members) pkg.types
      · exact .refused hrun
      · refine .interned (.interface ms) (.interface _ _) hrun rfl hknown rfl (hsane.sound.knows_merged hknown hmerge)
          fun pkg' t hsane' honto hs => ?_
        have hretains := honto.retains hsane.toOrderly
        exact signifies_interface hsane' hop (hmembers.imp fun _ _ h => h.later hretains)
          (hretains.extends_types.mergeMethods_eq hmerge) hs

/-! ### All type expressions -/

omit hm in
/-- A type that is not found is invalid. -/
theorem getD_yields {a : ResolveM (Option TypeId)} (h : Yields file start [] P a (TypeFound file start id)) :
    Yields file start [] P ((·.getD TypeTable.invalid) <$> a) (Answers file start id) := by
  refine h.map fun o pkg _ ho => ?_
  cases o with
  | none => exact answers_invalid (ho.2 rfl)
  | some t => exact (ho.1 t rfl).answers

theorem typeExpr_yields (id : NodeId) : Yields file start [] P (m.typeExpr id) (Answers file start id) := by
  refine .any (.tree (.ite (fun hbad => .pure fun pkg _ _ => answers_invalid (.inl ⟨id, hbad⟩)) fun _ => ?_))
  split
  · next hop => exact typeName_yields hm hop
  · next hop =>
      refine .part fun c hc => (hm.type c).mono fun t pkg hsane h => ⟨h.backed, fun hvalid => ?_⟩
      exact (TypeRule.paren hop hc (h.signifies hvalid)).signifies hsane hvalid (by simp [hop]) (by simp [hop])
  · next hop => exact getD_yields (pointerType?_yields hm hop)
  · next hop => exact getD_yields (arrayType?_yields hm hop)
  · next hop => exact getD_yields (mapType?_yields hm hop)
  · next hop => exact getD_yields (chanType?_yields hm (by rw [hop]; rfl))
  · next hop => exact getD_yields (chanType?_yields hm (by rw [hop]; rfl))
  · next hop => exact getD_yields (chanType?_yields hm (by rw [hop]; rfl))
  · next hop =>
      exact getD_yields ((signature?_yields hm id).mono fun o pkg hsane ho =>
        ⟨fun t ht => signifies_func hop (ho.1 t ht), ho.2⟩)
  · next hop => exact getD_yields (interfaceType?_yields hm hop)
  · exact .fail rfl
  · exact .fail rfl
  · exact .fail rfl
  · exact .fail rfl

/-! ### Values -/

theorem constantName_yields (hop : file.tree.op id = .lit .ident) :
    Yields file start [] P (m.constantName id) (Evaluates file start id) := by
  refine .any ((object_yields hm id).bind durable_true fun obj => .check rfl fun hrole => ?_)
  have hrole := Decidable.of_not_not hrole
  split
  · next v t hv ht =>
      refine .pure fun pkg hsane h => ?_
      obtain ⟨hnone, -⟩ | ⟨v', t', hv', ht', hsuits⟩ := hsane.valued_of_lookup h.2 hrole
      · cases hnone.symm.trans hv
      · cases hv'.symm.trans hv
        cases ht'.symm.trans ht
        exact ⟨hsuits, hasType_name hsane hop h.2 (.inl hrole) ht hsuits.knows, hsane.states_name hop h.2 hrole hv⟩
  · exact .fail rfl

theorem constantExpr_yields (id : NodeId) :
    Yields file start [] P (m.constantExpr id) (Evaluates file start id) := by
  refine .any (.tree (.check rfl fun _ => ?_))
  dsimp only
  cases hkind : literalKind? (file.tree.op id) with
  | some kind => exact .pure fun pkg hsane _ => evaluates_literal hsane hkind
  | none =>
      dsimp only
      split
      · next hop => exact constantName_yields hm hop
      · next hop => exact .part fun c hc => (hm.constant c).mono fun x pkg _ h => h.paren hop hc
      · exact .fail rfl
      · exact .fail rfl
      · exact .fail rfl
      · exact .fail rfl

theorem valueName_yields (hop : file.tree.op id = .lit .ident) :
    Yields file start [] P (m.valueName id) (ValueAnswers file start id) := by
  refine .any ((object_yields hm id).bind durable_true fun obj => ?_)
  have hanswer (hrole : obj.role = .constant ∨ obj.role = .variable ∨ obj.role = .function) :
      Yields file start [] (fun pkg => True ∧ pkg.lookup (file.tree.literal id) = some obj) (pure obj.typ)
        (ValueAnswers file start id) :=
    .pure fun pkg hsane h t ht => hasType_name hsane hop h.2 hrole ht (hsane.knows_of_lookup h.2 t ht)
  split
  · next hrole => exact hanswer (.inl hrole)
  · next hrole => exact hanswer (.inr (.inl hrole))
  · next hrole => exact hanswer (.inr (.inr hrole))
  · exact .fail rfl
  · exact .fail rfl
  · exact .fail rfl

theorem valueExpr_yields (id : NodeId) : Yields file start [] P (m.valueExpr id) (ValueAnswers file start id) := by
  refine .any (.tree ?_)
  dsimp only
  cases hkind : literalKind? (file.tree.op id) with
  | some kind =>
      refine .pure fun pkg hsane _ => ?_
      rintro t ⟨⟩
      exact (evaluates_literal hsane hkind).typed
  | none =>
      dsimp only
      split
      · next hop => exact valueName_yields hm hop
      · next hop => exact .part fun c hc => (hm.value c).mono fun o pkg _ h t ht => (h t ht).paren hop hc
      · exact .pure fun pkg _ _ => nofun

omit hm in
theorem defaultType_yields {value : NodeId} :
    Yields file start [] (HasType file start value t) (ResolveM.defaultType value t) fun u pkg =>
      pkg.types.Knows u ∧ (u ≠ TypeTable.invalid →
        ∃ S, Says file (pkg.setting start) (.value value) S ∧ pkg.Stands file start u S.default) := by
  refine .types fun tt => .check rfl fun _ => .pure ?_
  rintro pkg hsane ⟨ht, rfl⟩
  refine ⟨?_, fun hvalid => ?_⟩
  · cases hkind : defaultKind? (pkg.types.kind t) with
    | none => exact ht.knows
    | some kind => exact knows_basic hsane.sound (isBasic_of_defaultKind? hkind)
  · have hne : t ≠ TypeTable.invalid := by
      rintro rfl
      have hkind := of_decide_eq_true (Bool.and_eq_true_iff.1 hsane.regular.isInvalid_invalid).2
      rw [hkind] at hvalid
      exact hvalid rfl
    obtain ⟨S, hS, hstands⟩ := ht.sense hne
    exact ⟨S, hS, stands_default hsane hstands⟩

end Meanings

end GoSource
