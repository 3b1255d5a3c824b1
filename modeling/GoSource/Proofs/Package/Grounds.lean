import GoSource.Proofs.Package.Afresh
import GoSource.Proofs.Package.Signifies
import GoSource.Proofs.Package.Universe

/-!
# What packages start from

The names that need no declaration stand for types with a sense, in a new package and after any history.  So a file can
be resolved from there.

* **`mem_predeclared`**: what the predeclared names are.
* **`Package.Session.startsFrom`**: what is there before a file is resolved.
-/

namespace GoSource

open TypeTable

variable {tt : TypeTable} {pkg : Package} {obj : Object} {t : TypeId}

/-- The predeclared names: basic types and values of such types, `any`, `error`, and functions. -/
theorem mem_predeclared {any error : TypeId} {functions : List Object}
    (hfunctions : ∀ obj ∈ functions, obj.role = .builtin) (hobj : obj ∈ predeclaredNames any error ++ functions) :
    (∃ k, k.isBasic = true ∧ obj.typ = some (basic k) ∧ (obj.role = .type → defaultKind? k = none)) ∨
      obj.typ = some any ∨ obj.typ = some error ∧ obj.role = .type ∨ obj.role = .builtin := by
  rcases List.mem_append.1 hobj with hobj | hobj
  · rw [predeclaredNames, List.mem_append] at hobj
    rcases hobj with hobj | hobj
    · obtain ⟨k, hk, rfl⟩ := List.mem_map.1 hobj
      have hbasic : ∀ k ∈ predeclaredKinds, k.isBasic = true ∧ defaultKind? k = none := by decide
      exact .inl ⟨k, (hbasic k hk).1, rfl, fun _ => (hbasic k hk).2⟩
    · simp only [List.mem_cons, List.not_mem_nil, or_false] at hobj
      rcases hobj with rfl | rfl | rfl | rfl | rfl | rfl | rfl
      · exact .inl ⟨.uint8, rfl, rfl, fun _ => rfl⟩
      · exact .inl ⟨.int32, rfl, rfl, fun _ => rfl⟩
      · exact .inr (.inl rfl)
      · exact .inr (.inr (.inl ⟨rfl, rfl⟩))
      · exact .inl ⟨.untypedBool, rfl, rfl, by rintro ⟨⟩⟩
      · exact .inl ⟨.untypedBool, rfl, rfl, by rintro ⟨⟩⟩
      · exact .inl ⟨.untypedNil, rfl, rfl, by rintro ⟨⟩⟩
  · exact .inr (.inr (.inr (hfunctions obj hobj)))

/-- The interface that `error` stands for. -/
theorem stands_error {c : Setting} {owns : Entry → TypeId → Prop} {i sig : TypeId} (h : tt.Sound)
    (hi : tt.shape i = .interface [{ name := "Error", pkgPath := "", typ := sig }])
    (hsig : tt.shape sig = .func [] [basic .string] false) :
    ∃ ps, Stands c tt owns i (.interface ps) := by
  have hstands : Stands c tt owns sig _ := .func hsig (by rintro _ _ ⟨⟩) .nil (.cons (h.stands_basic rfl) .nil)
  have hmethod : StandsMethod c tt owns { name := "Error", pkgPath := "", typ := sig } (_, _) := ⟨rfl, hstands⟩
  exact ⟨_, .interface hi (.cons hmethod .nil)⟩

/-- The names that need no declaration stand for types with a sense. -/
theorem new_grounded (h : tt.Sound) : ((Package.new tt).setting (Package.new tt).types).Grounded := by
  obtain ⟨any, error, functions, tt', hrun, hreaches, hany, ⟨i, sig, ms, herror, hi, hsig⟩, hroles, -⟩ :=
    newUniverse_run h
  have hsound := (hreaches.grows h).sound
  rw [new_eq hrun]
  have hinterface {methods : List (Method × Sense)} : (Sense.interface methods).IsTyped := by
    rintro k ⟨⟩
  refine ⟨fun obj hobj hrole t ht => ?_, fun t ht => ?_⟩
  · obtain ⟨k, hk, hbasic, htyped⟩ | hanyType | ⟨herrorType, htype⟩ | hbuiltin := mem_predeclared hroles hobj
    · cases hbasic.symm.trans ht
      refine ⟨.basic k, hsound.stands_basic hk, fun htype k' hk' => ?_⟩
      cases hk'
      exact htyped htype
    · cases hanyType.symm.trans ht
      exact ⟨.interface [], .interface hany .nil, fun _ => hinterface⟩
    · cases herrorType.symm.trans ht
      exact ⟨.given error, .given ⟨congrArg Shape.isDeclared herror, obj, hobj, htype, ht⟩, fun _ => nofun⟩
    · exact absurd hbuiltin hrole
  · obtain ⟨hdeclared, obj, hobj, htype, ht⟩ := ht
    have hdeclared : (tt'.shape t).isDeclared = true := hdeclared
    obtain ⟨k, hk, hbasic, -⟩ | hanyType | ⟨herrorType, -⟩ | hbuiltin := mem_predeclared hroles hobj
    · cases hbasic.symm.trans ht
      rw [hsound.basics k hk] at hdeclared
      cases hdeclared
    · cases hanyType.symm.trans ht
      rw [hany] at hdeclared
      cases hdeclared
    · cases herrorType.symm.trans ht
      obtain ⟨ps, hps⟩ := stands_error hsound hi hsig
      have hunderlying : tt'.underlying? error = some i := by rw [TypeTable.underlying?, herror]
      exact ⟨i, .interface ps, hunderlying, hps, hinterface⟩
    · cases hbuiltin.symm.trans htype

namespace Package.Session

/-- The names that need no declaration go on to do so. -/
theorem grounded (h : pkg.Session) : (pkg.setting pkg.types).Grounded := by
  have hlater {pkg pkg' : Package} (h : pkg.Session) (hgrounded : (pkg.setting pkg.types).Grounded)
      (houter : pkg'.outer = pkg.outer) (hreaches : Reaches pkg.types pkg'.types) :
      (pkg'.setting pkg'.types).Grounded :=
    hgrounded.grows houter (hreaches.grows h.ready.regular.toSound) h.ready.predeclared
  induction h with
  | new h => exact new_grounded (regular_of_reachable h).toSound
  | resolved h hfile hdecls ih =>
      obtain ⟨houter, hreaches⟩ := resolveDecls_reaches h hfile hdecls
      exact hlater h ih houter hreaches
  | operation h op hknown ih => exact hlater h ih rfl (Reaches.refl.step op hknown)

/-- What is there before a file is resolved. -/
theorem startsFrom (h : pkg.Session) : pkg.StartsFrom pkg.types :=
  ⟨h.ready.regular.toSound, .refl, h.grounded⟩

/-- It has been there before all other files that have been resolved. -/
theorem startsFrom_of_reaches {pkg' : Package} (h : pkg.Session) (houter : pkg'.outer = pkg.outer)
    (hreaches : Reaches pkg.types pkg'.types) : pkg'.StartsFrom pkg.types :=
  h.startsFrom.later houter hreaches

end Package.Session

end GoSource
