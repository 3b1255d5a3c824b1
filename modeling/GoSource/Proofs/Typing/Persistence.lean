import GoSource.Proofs.Typing.Fingerprints
import GoSource.Proofs.Typing.Refusals
import GoSource.Proofs.Typing.Relations

/-!
# Relations last

Operations make types, declare methods and finish layouts.  Once all declared types are bound, no operation ends a
relation between two types.

* **`Relation`**: the relations between types.
* **`AllBound`**: all declared types are bound.
* **`declared`**: the methods declared on a type; **`Step.declared_subset`**, **`Reaches.declared_subset`**: one
  operation, and any number of them, take none away.
* **`Follows`**: a later table; **`Follows.underlyingShape?_eq`**, **`Follows.methodSet_subset`**: what types stand for
  there, and what can be called on their values.
* **`Follows.holds`**, **`relation_persists`**: relations are kept.
-/

namespace GoSource.TypeTable

/-- The relations between two types. -/
inductive Relation where
  /-- They are the same type. -/
  | identical
  /-- The first one has every method of the second one, an interface. -/
  | implements
  /-- Values of the first one can be stored in variables of the second one. -/
  | assignable
  /-- Values of the first one can be converted to the second one. -/
  | convertible
  deriving DecidableEq, Repr

/-- Whether two types are in a relation. -/
def Relation.holds (tt : TypeTable) : Relation → TypeId → TypeId → Bool
  | .identical, t, u => t = u
  | .implements, t, u => tt.implements t u
  | .assignable, t, u => tt.assignable t u
  | .convertible, t, u => tt.convertible t u

/-- Every declared type stands for something. -/
def AllBound (tt : TypeTable) : Prop :=
  ∀ t pkgPath name bound ms, tt.shape t = .named pkgPath name bound ms → bound.isSome

theorem allBound_iff {tt : TypeTable} : tt.AllBound ↔ ∀ i < tt.types.size, (tt.underlying? ⟨i⟩).isSome := by
  constructor
  · intro h i _
    cases hs : tt.shape ⟨i⟩ with
    | named pkgPath name bound ms =>
        rw [underlying?, hs]
        exact h ⟨i⟩ pkgPath name bound ms hs
    | _ =>
        rw [underlying?, hs]
        rfl
  · intro h t pkgPath name bound ms hs
    have hsome := h t.index (knows_of_shape_ne (by rw [hs]; simp))
    rw [underlying?, hs] at hsome
    exact hsome

instance (tt : TypeTable) : Decidable tt.AllBound :=
  decidable_of_iff' _ allBound_iff

/-- The methods declared on a type, whatever it stands for. -/
def declared (tt : TypeTable) (t : TypeId) : List Method :=
  match tt.shape t with
  | .named _ _ _ ms => ms
  | _ => []

variable {tt tt' : TypeTable} {t u a b : TypeId} {ms ms' : List Method}

/-! ### Declared methods -/

/-- A declared type that is declared anew keeps its methods if the new ones are among them. -/
theorem declared_subset_update {f : TypeInfo → TypeInfo} {pkgPath name : String} {bound bound' : Option TypeId}
    (hs : tt.shape u = .named pkgPath name bound ms) (hs' : (f (tt.info u)).shape = .named pkgPath name bound' ms')
    (hms : ms ⊆ ms') (t : TypeId) : tt.declared t ⊆ (tt.update u f).declared t := by
  rw [declared, declared, shape_update]
  split_ifs with htu
  · rw [htu.1, hs, hs']
    exact hms
  · exact List.Subset.refl _

/-- An operation takes no declared method away. -/
theorem Step.declared_subset (hstep : tt.Step tt') (ht : tt.Knows t) : tt.declared t ⊆ tt'.declared t := by
  have hkept (hs : tt'.shape t = tt.shape t) : tt.declared t ⊆ tt'.declared t := by
    rw [declared, declared, hs]
    exact List.Subset.refl _
  cases hstep with
  | refused => exact hkept rfl
  | intern => exact hkept (shape_intern_of_knows _ ht)
  | named pkgPath name => exact hkept (shape_pushed_of_knows _ _ ht)
  | @bind v meaning =>
      obtain ⟨fault, hrun⟩ | ⟨pkgPath, name, ms, w, hs, -, hrun⟩ := setUnderlying_cases v meaning tt
      · exact hkept (by rw [hrun])
      · rw [hrun]
        exact declared_subset_update hs rfl (List.Subset.refl ms) t
  | method v m =>
      obtain ⟨outcome, hrun⟩ | ⟨pkgPath, name, bound, ms, hs, hrun⟩ := addMethod_cases v m tt
      · exact hkept (by rw [hrun])
      · rw [hrun]
        refine declared_subset_update hs rfl (fun n hn => ?_) t
        exact List.mem_mergeSort.2 (List.mem_append_left [m] hn)
  | complete v => exact hkept ((leads_complete v tt).shape_eq t)

/-- Any number of operations take no declared method away. -/
theorem Reaches.declared_subset (h : Reaches tt tt') (hsound : tt.Sound) (ht : tt.Knows t) :
    tt.declared t ⊆ tt'.declared t := by
  induction h with
  | refl => exact List.Subset.refl _
  | step h op hknown ih =>
      have hgrows := h.grows hsound
      exact List.Subset.trans ih ((hgrows.sound.step op hknown).declared_subset (hgrows.knows ht))

/-! ### Later tables -/

/-- The table `tt'` comes after `tt`, in which all declared types are bound. -/
structure Follows (tt tt' : TypeTable) : Prop extends Grows tt tt' where
  before : tt.Sound
  bound : tt.AllBound
  declared_subset : ∀ {t}, tt.Knows t → tt.declared t ⊆ tt'.declared t

theorem Reaches.follows (h : Reaches tt tt') (hsound : tt.Sound) (hbound : tt.AllBound) : Follows tt tt' :=
  ⟨h.grows hsound, hsound, hbound, fun ht => h.declared_subset hsound ht⟩

namespace Follows

/-- A type is built as before, or it is declared and stands for the same type as before. -/
theorem cases_shape (h : Follows tt tt') (ht : tt.Knows t) :
    ((tt.shape t).isDeclared = false ∧ tt'.shape t = tt.shape t) ∨
      ∃ pkgPath name u ms ms', tt.shape t = .named pkgPath name (some u) ms ∧
        tt'.shape t = .named pkgPath name (some u) ms' := by
  cases hbuilt : (tt.shape t).isDeclared with
  | false => exact .inl ⟨rfl, h.shape_eq ht hbuilt⟩
  | true =>
      cases hs : tt.shape t with
      | named pkgPath name bound ms =>
          obtain ⟨u, rfl⟩ := Option.isSome_iff_exists.1 (h.bound t pkgPath name bound ms hs)
          obtain ⟨ms', hs'⟩ := h.bound_eq hs
          exact .inr ⟨pkgPath, name, u, ms, ms', rfl, hs'⟩
      | _ =>
          rw [hs] at hbuilt
          cases hbuilt

theorem isDeclared_eq (h : Follows tt tt') (ht : tt.Knows t) :
    (tt'.shape t).isDeclared = (tt.shape t).isDeclared := by
  obtain ⟨-, hs'⟩ | ⟨pkgPath, name, u, ms, ms', hs, hs'⟩ := h.cases_shape ht
  · rw [hs']
  · rw [hs, hs']
    rfl

theorem isNamed_eq (h : Follows tt tt') (ht : tt.Knows t) : tt'.isNamed t = tt.isNamed t := by
  obtain ⟨-, hs'⟩ | ⟨pkgPath, name, u, ms, ms', hs, hs'⟩ := h.cases_shape ht
  · rw [isNamed, isNamed, hs']
  · rw [isNamed, isNamed, hs, hs']

theorem underlying?_eq (h : Follows tt tt') (ht : tt.Knows t) : tt'.underlying? t = tt.underlying? t := by
  obtain ⟨-, hs'⟩ | ⟨pkgPath, name, u, ms, ms', hs, hs'⟩ := h.cases_shape ht
  · rw [underlying?, underlying?, hs']
  · rw [underlying?, underlying?, hs, hs']

theorem underlyingShape?_eq (h : Follows tt tt') (ht : tt.Knows t) :
    tt'.underlyingShape? t = tt.underlyingShape? t := by
  rw [underlyingShape?, underlyingShape?, h.underlying?_eq ht]
  cases hu : tt.underlying? t with
  | none => rfl
  | some u =>
      obtain ⟨hknows, hbuilt⟩ := h.before.underlying? ht hu
      rw [Option.map_some, Option.map_some, h.shape_eq hknows hbuilt]

theorem kind_eq (h : Follows tt tt') (ht : tt.Knows t) : tt'.kind t = tt.kind t := by
  rw [h.sound.kind_eq_underlying, h.before.kind_eq_underlying, h.underlyingShape?_eq ht]

theorem elem?_eq (h : Follows tt tt') (ht : tt.Knows t) : tt'.elem? t = tt.elem? t := by
  rw [elem?, elem?, h.underlyingShape?_eq ht]

theorem chanDir?_eq (h : Follows tt tt') (ht : tt.Knows t) : tt'.chanDir? t = tt.chanDir? t := by
  rw [chanDir?, chanDir?, h.underlyingShape?_eq ht]

theorem pointee?_eq (h : Follows tt tt') (ht : tt.Knows t) : tt'.pointee? t = tt.pointee? t := by
  rw [pointee?, pointee?, h.elem?_eq ht]
  cases he : tt.elem? t with
  | none => rfl
  | some e => exact h.underlying?_eq (h.before.knows_elem ht he)

theorem isBytesOrRunes_eq (h : Follows tt tt') (ht : tt.Knows t) : tt'.isBytesOrRunes t = tt.isBytesOrRunes t := by
  rw [isBytesOrRunes, isBytesOrRunes, h.kind_eq ht, h.elem?_eq ht]
  cases he : tt.elem? t with
  | none => rfl
  | some e => rw [Option.any_some, Option.any_some, h.kind_eq (h.before.knows_elem ht he)]

/-! ### Method sets -/

/-- A type keeps its methods. -/
theorem methods_subset (h : Follows tt tt') (ht : tt.Knows t) : tt.methods t ⊆ tt'.methods t := by
  obtain ⟨hbuilt, hs'⟩ | ⟨pkgPath, name, u, ms, ms', hs, hs'⟩ := h.cases_shape ht
  · rw [methods, methods, hs']
    cases hs : tt.shape t with
    | named =>
        rw [hs] at hbuilt
        cases hbuilt
    | _ => exact List.Subset.refl _
  · have hdeclared := h.declared_subset ht
    simp only [declared, hs, hs'] at hdeclared
    simp only [methods, hs, hs', Option.map_some, h.shape_eq (h.before.meant hs) (h.before.bound hs)]
    cases tt.shape u with
    | interface inherited => exact List.Subset.refl inherited
    | _ => exact hdeclared

/-- What can be called on the values of a type can be called later. -/
theorem methodSet_subset (h : Follows tt tt') (ht : tt.Knows t) : tt.methodSet t ⊆ tt'.methodSet t := by
  have hmethods := h.methods_subset ht
  rw [methodSet, methodSet]
  obtain ⟨hbuilt, hs'⟩ | ⟨pkgPath, name, u, ms, ms', hs, hs'⟩ := h.cases_shape ht
  · rw [hs']
    cases hs : tt.shape t with
    | interface => exact hmethods
    | pointer elem =>
        have helem : tt.Knows elem := h.before.knows_part ht (by rw [hs]; exact List.mem_singleton_self elem)
        dsimp only
        rw [h.isDeclared_eq helem, h.kind_eq helem]
        split
        · exact h.methods_subset helem
        · exact List.Subset.refl []
    | named =>
        rw [hs] at hbuilt
        cases hbuilt
    | _ => exact List.Subset.refl []
  · rw [hs, hs']
    exact hmethods

/-! ### Relations -/

theorem implements (h : Follows tt tt') (ha : tt.Knows a) (hb : tt.Knows b) (hab : tt.implements a b = true) :
    tt'.implements a b = true := by
  obtain ⟨ms, hms, hsub⟩ := implements_iff.1 hab
  exact implements_iff.2 ⟨ms, (h.underlyingShape?_eq hb).trans hms, List.Subset.trans hsub (h.methodSet_subset ha)⟩

theorem assignable (h : Follows tt tt') (ha : tt.Knows a) (hb : tt.Knows b) (hab : tt.assignable a b = true) :
    tt'.assignable a b = true := by
  rw [TypeTable.assignable] at hab ⊢
  rw [h.underlying?_eq ha, h.underlying?_eq hb, h.kind_eq ha, h.kind_eq hb, h.isNamed_eq ha, h.isNamed_eq hb,
    h.chanDir?_eq ha, h.elem?_eq ha, h.elem?_eq hb]
  by_cases hsame : a = b
  · rw [if_pos hsame]
  rw [if_neg hsame] at hab ⊢
  cases hu : tt.underlying? a with
  | none =>
      rw [hu] at hab
      cases hab
  | some u =>
      cases hv : tt.underlying? b with
      | none =>
          rw [hu, hv] at hab
          cases hab
      | some v =>
          rw [hu, hv] at hab
          dsimp only at hab ⊢
          split
          · next hinvalid =>
              rw [if_pos hinvalid] at hab
              cases hab
          · next hvalid =>
              -- Only the methods of `a` can have changed.
              rw [if_neg hvalid, Bool.or_eq_true, Bool.and_eq_true] at hab
              rw [Bool.or_eq_true, Bool.and_eq_true]
              exact hab.imp_right (And.imp_right (h.implements ha hb))

theorem convertible (h : Follows tt tt') (ha : tt.Knows a) (hb : tt.Knows b) (hab : tt.convertible a b = true) :
    tt'.convertible a b = true := by
  rw [TypeTable.convertible] at hab ⊢
  rw [h.underlying?_eq ha, h.underlying?_eq hb, h.kind_eq ha, h.kind_eq hb, h.isNamed_eq ha, h.isNamed_eq hb,
    h.pointee?_eq ha, h.pointee?_eq hb, h.isBytesOrRunes_eq ha, h.isBytesOrRunes_eq hb]
  split
  · rfl
  · next hno =>
      rw [if_neg fun hyes => hno (h.assignable ha hb hyes)] at hab
      exact hab

theorem holds (h : Follows tt tt') (ha : tt.Knows a) (hb : tt.Knows b) (rel : Relation)
    (hab : rel.holds tt a b = true) : rel.holds tt' a b = true := by
  cases rel with
  | identical => exact hab
  | implements => exact h.implements ha hb hab
  | assignable => exact h.assignable ha hb hab
  | convertible => exact h.convertible ha hb hab

end Follows

/-- Relations last.  If all declared types are bound, a relation between two types still holds after any number of
operations.  To ask for the layout of a type is one of them: it changes no more than the attempt to complete it. -/
theorem relation_persists (h : Reachable tt) (hbound : tt.AllBound) (h' : Reaches tt tt') (ha : tt.Knows a)
    (hb : tt.Knows b) (rel : Relation) (hab : rel.holds tt a b = true) : rel.holds tt' a b = true :=
  (h'.follows (sound_of_reachable h) hbound).holds ha hb rel hab

/-- A declared type with a method can be stored in a variable of the interface that has it, also when another type and
another method have been declared. -/
theorem relation_persists_method :
    let m : Method := { name := "M", pkgPath := "", typ := ⟨27⟩ }
    let n : Method := { name := "N", pkgPath := "", typ := ⟨27⟩ }
    let bound := (setUnderlying ⟨26⟩ (basic .int) (newNamed "p" "T" (new .amd64)).2).2
    let tt := (intern (.interface [m]) (addMethod ⟨26⟩ m (newFunc [] [] false bound).2).2).2
    let tt' := (addMethod ⟨26⟩ n (newNamed "p" "U" tt).2).2
    Relation.assignable.holds tt ⟨26⟩ ⟨28⟩ = true ∧ Relation.assignable.holds tt' ⟨26⟩ ⟨28⟩ = true := by
  intro m n bound tt tt'
  have hbound : Reaches (new .amd64) bound :=
    (Reaches.refl.step (.named "p" "T") (by simp [Operation.handles])).step (.bind ⟨26⟩ (basic .int))
      (by decide +kernel)
  have hmethod : Reaches (new .amd64) (addMethod ⟨26⟩ m (newFunc [] [] false bound).2).2 :=
    (hbound.step (.func [] [] false) (by simp [Operation.handles])).step (.method ⟨26⟩ m) (by decide +kernel)
  have hreach : Reaches (new .amd64) tt := by
    refine hmethod.after (.interface [] [m]) (by decide +kernel) ?_
    have hmerged : IsMerged [m] := ⟨by decide, by decide, by decide⟩
    rw [Operation.run, newInterface_ok (mergeMethods_self hmerged (by decide +kernel))]
  have hlater : Reaches tt tt' :=
    (Reaches.refl.step (.named "p" "U") (by simp [Operation.handles])).step (.method ⟨26⟩ n) (by decide +kernel)
  have hknown : tt.Knows ⟨26⟩ ∧ tt.Knows ⟨28⟩ := by decide +kernel
  have hholds : Relation.assignable.holds tt ⟨26⟩ ⟨28⟩ = true := by decide +kernel
  exact ⟨hholds, relation_persists ⟨.amd64, hreach⟩ (by decide +kernel) hlater hknown.1 hknown.2 _ hholds⟩

end GoSource.TypeTable
