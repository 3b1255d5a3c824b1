import GoSource.Proofs.Typing.Canonical
import GoSource.Typing.Relation

/-!
# Relations with interfaces

What it takes to implement an interface, and to be stored in a variable of an interface type.

* **`Kinded.kind_eq_underlying`**: a type has the kind of what it stands for.
* **`methodSet_of_interface`**: what stands for an interface has its methods, and no others.
* **`implements_iff`**: to implement an interface is to have its methods.
* **`Kinded.assignable_interface_iff`**: what can be stored in a variable of an interface type.
* **`relations_compose`**: both relations can be followed through an interface.
-/

namespace GoSource

/-- A method is known by its name, its package and its type. -/
theorem Method.eq_iff {m n : Method} : (m.sameName n && m.typ = n.typ) = true ↔ m = n := by
  cases m
  cases n
  simp only [sameName, Bool.and_eq_true, beq_iff_eq, decide_eq_true_eq, mk.injEq, and_assoc]

/-- Among constants without a type, `nil` alone fits an interface. -/
theorem Kind.fits_interface_iff {k : Kind} : k.isUntyped ∧ k.untypedFits .interface ↔ k = .untypedNil := by
  cases k <;> decide

namespace TypeTable

variable {tt : TypeTable} {t u a b c : TypeId} {s : Shape} {ms ms' : List Method}

/-! ### What types stand for -/

/-- A type has the kind of what it stands for, and none as long as it stands for nothing. -/
theorem Kinded.kind_eq_underlying (h : tt.Kinded) (t : TypeId) :
    tt.kind t = ((tt.underlyingShape? t).map Shape.kind).getD .invalid := by
  rw [h.kind_eq_kindOf, underlyingShape?, underlying?]
  cases hs : tt.shape t with
  | named pkgPath name bound ms =>
      cases bound with
      | none => rfl
      | some u => rfl
  | _ =>
      simp only [Option.map_some, Option.getD_some, hs]
      rfl

theorem Kinded.kind_of_underlying (h : tt.Kinded) (hs : tt.underlyingShape? t = some s) : tt.kind t = s.kind := by
  rw [h.kind_eq_underlying, hs]
  rfl

/-- A type that stands for an interface has its methods, and no others. -/
theorem methodSet_of_interface (h : tt.underlyingShape? t = some (.interface ms)) : tt.methodSet t = ms := by
  rw [underlyingShape?, underlying?] at h
  rw [methodSet]
  cases hs : tt.shape t with
  | named pkgPath name bound declared =>
      simp only [hs] at h
      simp only [methods, hs, h]
  | interface own =>
      simp only [hs, Option.map_some, Option.some.injEq, Shape.interface.injEq] at h
      simp only [methods, hs, h]
  | _ =>
      simp only [hs, Option.map_some] at h
      cases h

/-! ### Interfaces -/

/-- To implement an interface is to have its methods. -/
theorem implements_iff :
    tt.implements t u = true ↔ ∃ ms, tt.underlyingShape? u = some (.interface ms) ∧ ms ⊆ tt.methodSet t := by
  rw [implements]
  split
  · next wanted hs =>
      simp only [List.all_eq_true, List.any_eq_true, Method.eq_iff, exists_eq_right, hs, Option.some.injEq,
        Shape.interface.injEq, exists_eq_left', List.subset_def]
  · next hs =>
      constructor
      · intro h
        cases h
      · rintro ⟨ms, hms, -⟩
        exact absurd hms (hs ms)

theorem implements_interface_iff (hu : tt.underlyingShape? u = some (.interface ms)) :
    tt.implements t u = true ↔ ms ⊆ tt.methodSet t := by
  simp only [implements_iff, hu, Option.some.injEq, Shape.interface.injEq, exists_eq_left']

/-- In a variable of an interface type there is room for values of that type, for `nil`, and for values of all valid
types that have the methods. -/
theorem Kinded.assignable_interface_iff (h : tt.Kinded) (hu : tt.underlyingShape? u = some (.interface ms)) :
    tt.assignable t u = true ↔
      t = u ∨ tt.kind t ≠ .invalid ∧ (tt.kind t = .untypedNil ∨ ms ⊆ tt.methodSet t) := by
  have hkind : tt.kind u = .interface := h.kind_of_underlying hu
  have himplements := implements_interface_iff (t := t) hu
  obtain ⟨v, hv, hshape⟩ := Option.map_eq_some_iff.1 hu
  rw [assignable]
  by_cases htu : t = u
  · simp only [htu, if_true, true_or]
  rw [if_neg htu, hv, hkind]
  cases hunder : tt.underlying? t with
  | none =>
      have hinvalid : tt.kind t = .invalid := by
        rw [h.kind_eq_underlying, underlyingShape?, hunder]
        rfl
      simp [htu, hinvalid]
  | some w =>
      -- A type that stands for the same interface has the methods as well.
      have hsame (hwv : w = v) : ms ⊆ tt.methodSet t := by
        have hs : tt.underlyingShape? t = some (.interface ms) := by
          rw [underlyingShape?, hunder, Option.map_some, hwv, hshape]
        rw [methodSet_of_interface hs]
        exact List.Subset.refl ms
      by_cases hinvalid : tt.kind t = .invalid
      · simp [htu, hinvalid]
      · simp only [Kind.fits_interface_iff, himplements, htu, hinvalid, Bool.or_eq_true, Bool.and_eq_true,
          decide_eq_true_eq, reduceCtorEq, or_false, if_false, false_or, and_false, false_and, not_false_eq_true,
          true_and, ne_eq]
        constructor
        · rintro ((hnil | ⟨hwv, -⟩) | hms)
          · exact .inl hnil
          · exact .inr (hsame hwv)
          · exact .inr hms
        · rintro (hnil | hms)
          · exact .inl (.inl hnil)
          · exact .inr hms

/-- Interfaces compose.  What can be stored in a variable of an interface type can be stored wherever the values of
that type can be, in a variable of a second interface type; and what implements an interface implements all that
the interface implements. -/
theorem relations_compose (h : Reachable tt) (hb : tt.underlyingShape? b = some (.interface ms))
    (hc : tt.underlyingShape? c = some (.interface ms')) :
    (tt.assignable a b = true → tt.assignable b c = true → tt.assignable a c = true) ∧
      (tt.implements a b = true → tt.implements b c = true → tt.implements a c = true) := by
  have hkinded := (sound_of_reachable h).toKinded
  have hset : tt.methodSet b = ms := methodSet_of_interface hb
  have hkind : tt.kind b = .interface := hkinded.kind_of_underlying hb
  rw [implements_interface_iff hb, implements_interface_iff hc, implements_interface_iff hc, hset,
    hkinded.assignable_interface_iff hb, hkinded.assignable_interface_iff hc, hkinded.assignable_interface_iff hc,
    hset, hkind]
  refine ⟨?_, fun hab hbc => List.Subset.trans hbc hab⟩
  rintro (rfl | ⟨hvalid, hab⟩) hbc
  · rw [hkind, hset]
    exact hbc
  · rcases hbc with rfl | ⟨-, hnil | hbc⟩
    · cases hb.symm.trans hc
      exact .inr ⟨hvalid, hab⟩
    · cases hnil
    · exact .inr ⟨hvalid, hab.imp_right (List.Subset.trans hbc)⟩

/-- A declared type that stands for an interface with a method, that interface, and the one without methods. -/
theorem relations_compose_declared :
    let m : Method := { name := "M", pkgPath := "", typ := ⟨26⟩ }
    let interfaces := (intern (.interface []) (intern (.interface [m]) (newFunc [] [] false (new .amd64)).2).2).2
    let tt := (setUnderlying ⟨29⟩ ⟨27⟩ (newNamed "p" "T" interfaces).2).2
    (tt.assignable ⟨29⟩ ⟨27⟩ = true ∧ tt.assignable ⟨27⟩ ⟨28⟩ = true ∧ tt.assignable ⟨29⟩ ⟨28⟩ = true) ∧
      tt.implements ⟨29⟩ ⟨27⟩ = true ∧ tt.implements ⟨27⟩ ⟨28⟩ = true ∧ tt.implements ⟨29⟩ ⟨28⟩ = true := by
  intro m interfaces tt
  have hmerged : IsMerged [m] := ⟨by decide, by decide, by decide⟩
  have hfunc : Reaches (new .amd64) (newFunc [] [] false (new .amd64)).2 :=
    .step .refl (.func [] [] false) (by simp [Operation.handles])
  have hone : Reaches (new .amd64) (intern (.interface [m]) (newFunc [] [] false (new .amd64)).2).2 := by
    refine hfunc.after (.interface [] [m]) (by decide +kernel) ?_
    rw [Operation.run, newInterface_ok (mergeMethods_self hmerged (by decide +kernel))]
  have hboth : Reaches (new .amd64) interfaces := by
    refine hone.after (.interface [] []) (by simp [Operation.handles]) ?_
    rw [Operation.run, newInterface_ok (mergeMethods_self ⟨.nil, .nil, by decide⟩ (by simp))]
  have hreach : Reaches (new .amd64) tt :=
    (hboth.step (.named "p" "T") (by simp [Operation.handles])).step (.bind ⟨29⟩ ⟨27⟩) (by decide +kernel)
  have hb : tt.underlyingShape? ⟨27⟩ = some (.interface [m]) := by decide +kernel
  have hc : tt.underlyingShape? ⟨28⟩ = some (.interface []) := by decide +kernel
  obtain ⟨hassignable, himplements⟩ := relations_compose (a := ⟨29⟩) ⟨.amd64, hreach⟩ hb hc
  have hstored : tt.assignable ⟨29⟩ ⟨27⟩ = true ∧ tt.assignable ⟨27⟩ ⟨28⟩ = true := by decide +kernel
  have hhas : tt.implements ⟨29⟩ ⟨27⟩ = true ∧ tt.implements ⟨27⟩ ⟨28⟩ = true := by decide +kernel
  exact ⟨⟨hstored.1, hstored.2, hassignable hstored.1 hstored.2⟩, hhas.1, hhas.2, himplements hhas.1 hhas.2⟩

end TypeTable

end GoSource
