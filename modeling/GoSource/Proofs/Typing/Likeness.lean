import GoSource.Proofs.Typing.Forms
import GoSource.Proofs.Typing.Mirrors
import GoSource.Typing.Relation
import Mathlib.Data.List.Find

/-!
# Types that look alike

What can be asked about a type does not depend on the handles: kind, parts, methods, spelling, and how two types stand
to each other.

* **`Tracks.kind_eq`**, **`Tracks.underlyingShape?_eq`**, **`Tracks.methods_eq`**: what a type is.
* **`Tracks.assignable_eq`**: which values can be stored where.
* **`Mirrors.spell_eq`**: how a type is written.
* **`Mirrors.mergeMethods_eq`**: the methods of an interface.
-/

namespace GoSource.TypeTable

variable {small big : TypeTable} {f : TypeId → TypeId} {s : Shape} {t u : TypeId} {start : Nat} {base : TypeId → Prop}

namespace Tracks

theorem eq_iff (h : Tracks f small big) (ht : small.Knows t) (hu : small.Knows u) : f t = f u ↔ t = u :=
  ⟨h.injective ht hu, congrArg f⟩

/-- Corresponding types are both built, and alike, or both declared. -/
theorem cases_shape (h : Tracks f small big) (ht : small.Knows t) :
    ((small.shape t).isDeclared = false ∧ big.shape (f t) = (small.shape t).renamed f) ∨
      ∃ pkgPath name bound ms ms', small.shape t = .named pkgPath name bound ms ∧
        big.shape (f t) = .named pkgPath name (bound.map f) ms' := by
  cases hs : small.shape t with
  | named pkgPath name bound ms =>
      obtain ⟨ms', hs'⟩ := (h.echoes ht).of_named hs
      exact .inr ⟨pkgPath, name, bound, ms, ms', rfl, hs'⟩
  | _ =>
      refine .inl ⟨rfl, ?_⟩
      rw [← hs]
      exact (h.echoes ht).of_built (by rw [hs]; rfl)

theorem shape_kind_eq (h : Tracks f small big) (ht : small.Knows t) :
    (big.shape (f t)).kind = (small.shape t).kind := by
  obtain ⟨-, hs'⟩ | ⟨pkgPath, name, bound, ms, ms', hs, hs'⟩ := h.cases_shape ht
  · rw [hs', Shape.kind_renamed]
  · rw [hs, hs']
    rfl

theorem kind_eq (h : Tracks f small big) (ht : small.Knows t) : big.kind (f t) = small.kind t := by
  rw [h.faithful.kind_eq_kindOf, h.faithful'.kind_eq_kindOf]
  obtain ⟨hbuilt, hs'⟩ | ⟨pkgPath, name, bound, ms, ms', hs, hs'⟩ := h.cases_shape ht
  · rw [hs', kindOf_of_built hbuilt, kindOf_of_built (by rw [Shape.isDeclared_renamed, hbuilt]), Shape.kind_renamed]
  · rw [hs, hs']
    cases bound with
    | none => rfl
    | some u =>
        show (big.shape (f u)).kind = (small.shape u).kind
        rw [(h.echoes (h.faithful.meant hs)).of_built (h.faithful.bound hs), Shape.kind_renamed]

theorem underlying?_eq (h : Tracks f small big) (ht : small.Knows t) :
    big.underlying? (f t) = (small.underlying? t).map f := by
  obtain ⟨hbuilt, hs'⟩ | ⟨pkgPath, name, bound, ms, ms', hs, hs'⟩ := h.cases_shape ht
  · rw [underlying?, underlying?, hs']
    cases hs : small.shape t with
    | named =>
        rw [hs] at hbuilt
        cases hbuilt
    | _ => rfl
  · rw [underlying?, underlying?, hs, hs']

/-- What a known type stands for is known, and built. -/
theorem underlying_known (h : Tracks f small big) (ht : small.Knows t) (hu : small.underlying? t = some u) :
    small.Knows u ∧ (small.shape u).isDeclared = false :=
  h.faithful.underlying? ht hu

theorem underlyingShape?_eq (h : Tracks f small big) (ht : small.Knows t) :
    big.underlyingShape? (f t) = (small.underlyingShape? t).map (Shape.renamed f) := by
  rw [underlyingShape?, underlyingShape?, h.underlying?_eq ht]
  cases hu : small.underlying? t with
  | none => rfl
  | some u =>
      obtain ⟨huknown, hbuilt⟩ := h.underlying_known ht hu
      exact congrArg some ((h.echoes huknown).of_built hbuilt)

/-- The handles in what a known type stands for are known. -/
theorem underlyingShape_known (h : Tracks f small big) (ht : small.Knows t) (hs : small.underlyingShape? t = some s) :
    ∀ x ∈ s.components, small.Knows x := by
  rw [underlyingShape?, Option.map_eq_some_iff] at hs
  obtain ⟨u, hu, rfl⟩ := hs
  exact fun x hx => h.part_known (h.underlying_known ht hu).1 hx

theorem isInvalid_eq (h : Tracks f small big) (ht : small.Knows t) : big.isInvalid (f t) = small.isInvalid t := by
  rw [isInvalid, isInvalid, h.kind_eq ht, h.underlying?_eq ht, Option.isSome_map]

theorem any_isInvalid_eq (h : Tracks f small big) {ts as : List TypeId} (hts : ∀ t ∈ ts, small.Knows t)
    (has : as = ts.map f) : as.any big.isInvalid = ts.any small.isInvalid := by
  rw [has, List.any_map, Bool.eq_iff_iff, List.any_eq_true, List.any_eq_true]
  refine exists_congr fun t => and_congr_right fun ht => ?_
  rw [Function.comp_apply, h.isInvalid_eq (hts t ht)]

theorem isNamed_eq (h : Tracks f small big) (ht : small.Knows t) : big.isNamed (f t) = small.isNamed t := by
  obtain ⟨hbuilt, hs'⟩ | ⟨pkgPath, name, bound, ms, ms', hs, hs'⟩ := h.cases_shape ht
  · rw [isNamed, isNamed, hs']
    cases small.shape t <;> rfl
  · rw [isNamed, isNamed, hs, hs']

theorem pkgPath?_eq (h : Tracks f small big) (ht : small.Knows t) : big.pkgPath? (f t) = small.pkgPath? t := by
  obtain ⟨hbuilt, hs'⟩ | ⟨pkgPath, name, bound, ms, ms', hs, hs'⟩ := h.cases_shape ht
  · rw [pkgPath?, pkgPath?, hs']
    cases small.shape t <;> rfl
  · rw [pkgPath?, pkgPath?, hs, hs']

theorem elem?_eq (h : Tracks f small big) (ht : small.Knows t) : big.elem? (f t) = (small.elem? t).map f := by
  rw [elem?, elem?, h.underlyingShape?_eq ht]
  cases small.underlyingShape? t with
  | none => rfl
  | some s => cases s <;> rfl

theorem elem_known (h : Tracks f small big) (ht : small.Knows t) (hu : small.elem? t = some u) : small.Knows u :=
  h.faithful.knows_elem ht hu

theorem chanDir?_eq (h : Tracks f small big) (ht : small.Knows t) : big.chanDir? (f t) = small.chanDir? t := by
  rw [chanDir?, chanDir?, h.underlyingShape?_eq ht]
  cases small.underlyingShape? t with
  | none => rfl
  | some s => cases s <;> rfl

theorem inputCount_eq (h : Tracks f small big) (ht : small.Knows t) : big.inputCount (f t) = small.inputCount t := by
  rw [inputCount, inputCount, h.underlyingShape?_eq ht]
  cases small.underlyingShape? t with
  | none => rfl
  | some s =>
      cases s with
      | func => exact List.length_map _
      | _ => rfl

theorem outputCount_eq (h : Tracks f small big) (ht : small.Knows t) :
    big.outputCount (f t) = small.outputCount t := by
  rw [outputCount, outputCount, h.underlyingShape?_eq ht]
  cases small.underlyingShape? t with
  | none => rfl
  | some s =>
      cases s with
      | func => exact List.length_map _
      | _ => rfl

/-! ### Methods -/

theorem methods_eq (h : Tracks f small big) (ht : small.Knows t) :
    big.methods (f t) = (small.methods t).map (Method.renamed f) := by
  rw [methods, methods]
  cases h.echoes ht with
  | same hs' =>
      rw [hs']
      cases hs : small.shape t with
      | named pkgPath name bound ms =>
          cases bound with
          | none => rfl
          | some u =>
              have hu := (h.echoes (h.faithful.meant hs)).of_built (h.faithful.bound hs)
              simp only [Shape.renamed, Option.map_some, hu]
              cases small.shape u <;> rfl
      | _ => rfl
  | @interface pkgPath name u ms ms' inherited hs hs' hbound =>
      have hu := (h.echoes (h.faithful.meant hs)).of_built (h.faithful.bound hs)
      simp only [hs, hs', Option.map_some, hu, hbound, Shape.renamed]

/-- The types of the methods of a known type are known. -/
theorem methods_known (h : Tracks f small big) (ht : small.Knows t) : ∀ m ∈ small.methods t, small.Knows m.typ := by
  intro m hm
  rw [methods] at hm
  cases hs : small.shape t with
  | interface ms =>
      rw [hs] at hm
      refine h.part_known ht ?_
      rw [hs]
      exact List.mem_map_of_mem hm
  | named pkgPath name bound ms =>
      have hown (hm : m ∈ ms) : small.Knows m.typ := by
        refine h.handles ht ?_
        rw [hs]
        exact List.mem_append_right _ (List.mem_map_of_mem hm)
      rw [hs] at hm
      cases bound with
      | none => exact hown hm
      | some u =>
          cases hu : small.shape u with
          | interface inherited =>
              simp only [Option.map_some, hu] at hm
              refine h.part_known (h.faithful.meant hs) ?_
              rw [hu]
              exact List.mem_map_of_mem hm
          | _ =>
              simp only [Option.map_some, hu] at hm
              exact hown hm
  | _ =>
      rw [hs] at hm
      cases hm

theorem methodSet_eq (h : Tracks f small big) (ht : small.Knows t) :
    big.methodSet (f t) = (small.methodSet t).map (Method.renamed f) := by
  have hmethods := h.methods_eq ht
  rw [methodSet, methodSet]
  obtain ⟨hbuilt, hs'⟩ | ⟨pkgPath, name, bound, ms, ms', hs, hs'⟩ := h.cases_shape ht
  · rw [hs']
    cases hs : small.shape t with
    | interface => exact hmethods
    | pointer elem =>
        have helem : small.Knows elem := h.part_known ht (by rw [hs]; exact List.mem_singleton_self elem)
        have hdeclared : (big.shape (f elem)).isDeclared = (small.shape elem).isDeclared := by
          obtain ⟨-, hse⟩ | ⟨_, _, _, _, _, hse, hse'⟩ := h.cases_shape helem
          · rw [hse, Shape.isDeclared_renamed]
          · rw [hse, hse']
            rfl
        show (if (big.shape (f elem)).isDeclared ∧ big.kind (f elem) ≠ .interface then big.methods (f elem) else []) = _
        rw [hdeclared, h.kind_eq helem, h.methods_eq helem]
        dsimp only
        split
        · rfl
        · rfl
    | named =>
        rw [hs] at hbuilt
        cases hbuilt
    | _ => rfl
  · rw [hs, hs']
    exact hmethods

theorem methodSet_known (h : Tracks f small big) (ht : small.Knows t) :
    ∀ m ∈ small.methodSet t, small.Knows m.typ := by
  intro m hm
  rw [methodSet] at hm
  cases hs : small.shape t with
  | interface | named =>
      rw [hs] at hm
      exact h.methods_known ht m hm
  | pointer elem =>
      rw [hs] at hm
      dsimp only at hm
      split at hm
      · exact h.methods_known (h.part_known ht (by rw [hs]; exact List.mem_singleton_self elem)) m hm
      · cases hm
  | _ =>
      rw [hs] at hm
      cases hm

theorem implements_eq (h : Tracks f small big) (ht : small.Knows t) (hu : small.Knows u) :
    big.implements (f t) (f u) = small.implements t u := by
  rw [implements, implements, h.underlyingShape?_eq hu, h.methodSet_eq ht]
  cases hs : small.underlyingShape? u with
  | none => rfl
  | some s =>
      cases s with
      | interface wanted =>
          have hwanted (want : Method) (hwant : want ∈ wanted) : small.Knows want.typ :=
            h.underlyingShape_known hu hs _ (List.mem_map_of_mem hwant)
          rw [Bool.eq_iff_iff]
          simp only [Option.map_some, Shape.renamed, List.all_map, List.any_map, List.all_eq_true, List.any_eq_true,
            Function.comp_apply, Bool.and_eq_true, decide_eq_true_eq]
          refine forall₂_congr fun want hwant => exists_congr fun own => and_congr_right fun hown => ?_
          refine and_congr_right fun _ => ?_
          exact h.eq_iff (h.methodSet_known ht own hown) (hwanted want hwant)
      | _ => rfl

/-- A value can be stored in a variable if a value of the corresponding type can be in one of the corresponding type. -/
theorem assignable_eq (h : Tracks f small big) (ht : small.Knows t) (hu : small.Knows u) :
    big.assignable (f t) (f u) = small.assignable t u := by
  have helem : big.elem? (f t) = big.elem? (f u) ↔ small.elem? t = small.elem? u := by
    rw [h.elem?_eq ht, h.elem?_eq hu]
    cases he : small.elem? t with
    | none => cases small.elem? u <;> simp
    | some e =>
        cases he' : small.elem? u with
        | none => simp
        | some e' => simp [h.eq_iff (h.elem_known ht he) (h.elem_known hu he')]
  rw [assignable, assignable, h.underlying?_eq ht, h.underlying?_eq hu, h.kind_eq ht, h.kind_eq hu, h.isNamed_eq ht,
    h.isNamed_eq hu, h.chanDir?_eq ht, h.implements_eq ht hu]
  simp only [h.eq_iff ht hu, helem]
  cases hv : small.underlying? t with
  | none => rfl
  | some v =>
      cases hw : small.underlying? u with
      | none => rfl
      | some w => simp only [Option.map_some, h.eq_iff (h.underlying_known ht hv).1 (h.underlying_known hu hw).1]

end Tracks

/-! ### Spelling -/

namespace Mirrors

/-- Corresponding types are built alike. -/
theorem likens (h : Mirrors start base f small big) : Likens (fun t a => small.Knows t ∧ a = f t) small big := by
  refine ⟨h.faithful.ordered, h.faithful'.ordered, ?_, ?_⟩
  · rintro t _ ⟨ht, rfl⟩
    obtain ⟨hbuilt, hs'⟩ | ⟨pkgPath, name, bound, ms, ms', hs, hs'⟩ := h.cases_shape ht
    · rw [hs']
      refine Shape.corresponds_of_form hbuilt (Shape.form_renamed f _).symm ?_
      rw [Shape.components_renamed, List.forall₂_map_right_iff]
      exact List.forall₂_same.2 fun x hx => ⟨h.part_known ht hx, rfl⟩
    · rw [hs, hs']
      exact .named pkgPath name _ _ _ _
  · rintro t _ ⟨ht, rfl⟩ ps rs hs
    exact h.variadic ht hs

/-- Corresponding types are spelled alike. -/
theorem spell_eq (h : Mirrors start base f small big) (ht : small.Knows t) : big.spell (f t) = small.spell t :=
  (h.likens.spell_eq ⟨ht, rfl⟩).symm

end Mirrors

/-! ### Merging methods -/

namespace Tracks

/-- Methods of known types are appended alike. -/
theorem appendMethod_eq (h : Tracks f small big) {acc : List Method} {m : Method}
    (hacc : ∀ n ∈ acc, small.Knows n.typ) (hm : small.Knows m.typ) :
    appendMethod (acc.map (Method.renamed f)) (m.renamed f) = (appendMethod acc m).map (List.map (Method.renamed f)) := by
  cases acc with
  | nil => rfl
  | cons last acc =>
      have hname : (last.renamed f).sameName (m.renamed f) = last.sameName m := rfl
      have htyp : (last.renamed f).typ = (m.renamed f).typ ↔ last.typ = m.typ :=
        h.eq_iff (hacc last List.mem_cons_self) hm
      rw [List.map_cons, appendMethod, appendMethod, hname]
      simp only [htyp]
      split
      · rfl
      · split
        · rfl
        · rfl

theorem appendMethods_eq (h : Tracks f small big) {ms acc : List Method} (hms : ∀ m ∈ ms, small.Knows m.typ)
    (hacc : ∀ n ∈ acc, small.Knows n.typ) :
    (ms.map (Method.renamed f)).foldlM appendMethod (acc.map (Method.renamed f)) =
      (ms.foldlM appendMethod acc).map (List.map (Method.renamed f)) := by
  induction ms generalizing acc with
  | nil => rfl
  | cons m ms ih =>
      have hm := hms m List.mem_cons_self
      rw [List.map_cons, List.foldlM_cons, List.foldlM_cons, h.appendMethod_eq hacc hm]
      cases happend : appendMethod acc m with
      | error fault => rfl
      | ok acc' =>
          refine ih (fun m hm => hms m (List.mem_cons_of_mem _ hm)) ?_
          obtain rfl | ⟨rfl, -⟩ := appendMethod_cases happend
          · exact hacc
          · exact List.forall_mem_cons.2 ⟨hm, hacc⟩

end Tracks

namespace Mirrors

/-- A type that is not invalid is not the invalid one. -/
theorem ne_invalid (h : Mirrors start base f small big) (ht : small.isInvalid t = false) : t ≠ invalid := by
  rintro rfl
  rw [isInvalid, h.faithful.kind_eq_kindOf, underlying?, h.blank.2] at ht
  cases ht

theorem embeddedMethods_eq (h : Mirrors start base f small big) (ht : small.Knows t) :
    big.embeddedMethods (f t) = (small.embeddedMethods t).map (List.map (Method.renamed f)) := by
  rw [embeddedMethods, embeddedMethods, h.underlyingShape?_eq ht, h.spell_eq ht]
  cases small.underlyingShape? t with
  | none => rfl
  | some s => cases s <;> rfl

theorem inherited_eq (h : Mirrors start base f small big) {ts : List TypeId} (hts : ∀ t ∈ ts, small.Knows t) :
    (ts.map f).mapM big.embeddedMethods =
      (ts.mapM small.embeddedMethods).map (List.map (List.map (Method.renamed f))) := by
  induction ts with
  | nil => rfl
  | cons t ts ih =>
      rw [List.map_cons, List.mapM_cons, List.mapM_cons, h.embeddedMethods_eq (hts t List.mem_cons_self),
        ih fun t ht => hts t (List.mem_cons_of_mem _ ht)]
      cases small.embeddedMethods t with
      | error fault => rfl
      | ok ms =>
          cases ts.mapM small.embeddedMethods with
          | error fault => rfl
          | ok mss => rfl

/-- Interfaces get corresponding methods, or the same fault. -/
theorem mergeMethods_eq (h : Mirrors start base f small big) {embedded : List TypeId} {direct : List Method}
    (hembedded : ∀ t ∈ embedded, small.Knows t) (hdirect : ∀ m ∈ direct, small.Knows m.typ) :
    big.mergeMethods (embedded.map f) (direct.map (Method.renamed f)) =
      (small.mergeMethods embedded direct).map (List.map (Method.renamed f)) := by
  rw [mergeMethods, mergeMethods, h.inherited_eq hembedded]
  cases hinherited : embedded.mapM small.embeddedMethods with
  | error fault => rfl
  | ok inherited =>
      have hall : ∀ m ∈ direct ++ inherited.flatten, small.Knows m.typ := by
        intro m hm
        rcases List.mem_append.1 hm with hm | hm
        · exact hdirect m hm
        · obtain ⟨t, ht, ms, hms, hmem⟩ := mem_inherited hinherited hm
          exact h.methods_known (hembedded t ht) m (methods_of_embedded hms ▸ hmem)
      have hmap : direct.map (Method.renamed f) ++ (inherited.map (List.map (Method.renamed f))).flatten =
          (direct ++ inherited.flatten).map (Method.renamed f) := by
        rw [List.map_append, List.map_flatten]
      generalize hms : direct ++ inherited.flatten = ms at hall hmap
      have hfind : (ms.map (Method.renamed f)).find? (fun m => (big.shape m.typ).kind ≠ .func) =
          (ms.find? fun m => (small.shape m.typ).kind ≠ .func).map (Method.renamed f) := by
        rw [List.find?_map]
        refine congrArg _ (List.find?_congr fun m hm => ?_)
        have hkind : (big.shape (m.renamed f).typ).kind = (small.shape m.typ).kind := h.shape_kind_eq (hall m hm)
        rw [Function.comp_apply, hkind]
      have hsort : (ms.map (Method.renamed f)).mergeSort Method.le = (ms.mergeSort Method.le).map (Method.renamed f) :=
        (List.map_mergeSort (f := Method.renamed f) fun _ _ _ _ => rfl).symm
      have hmerge : ((ms.mergeSort Method.le).map (Method.renamed f)).foldlM appendMethod [] =
          ((ms.mergeSort Method.le).foldlM appendMethod []).map (List.map (Method.renamed f)) :=
        h.appendMethods_eq (fun m hm => hall m (List.mem_mergeSort.1 hm)) fun m hm => absurd hm List.not_mem_nil
      dsimp only [Except.map, bind, Except.bind]
      rw [hms, hmap, hfind]
      cases hfunc : ms.find? fun m => (small.shape m.typ).kind ≠ .func with
      | some m =>
          have hm := hall m (List.mem_of_find?_eq_some hfunc)
          have hspell : big.spell (m.renamed f).typ = small.spell m.typ := h.spell_eq hm
          dsimp only [Option.map_some]
          rw [hspell]
          rfl
      | none =>
          dsimp only [Option.map_none]
          rw [hsort, hmerge]
          cases (ms.mergeSort Method.le).foldlM appendMethod [] with
          | error fault => rfl
          | ok merged =>
              dsimp only [Except.map]
              rw [List.length_map]
              split
              · rfl
              · exact congrArg Except.ok List.map_reverse.symm

end Mirrors

end GoSource.TypeTable
