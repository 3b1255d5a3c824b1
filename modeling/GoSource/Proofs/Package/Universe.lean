import GoSource.Package.State
import GoSource.Proofs.Typing.Writable

/-!
# The universe

The names that need no declaration can be made in every table.

* **`newUniverse_run`**: they are, and `error` is what it should be.
* **`predeclared?_basic`**, **`predeclared?_error`**: the predeclared types are found by their names.
-/

namespace GoSource

open TypeTable

variable {tt : TypeTable}

/-- The declared type `error` can be made in every table. -/
theorem newErrorType_run (h : tt.Sound) :
    ∃ error tt', newErrorType tt = (.ok error, tt') ∧ Reaches tt tt' ∧ tt'.IsError error := by
  have hstring : tt.Knows (basic .string) := by
    refine knows_of_shape_ne ?_
    rw [h.basics .string rfl]
    simp
  obtain ⟨sig, tt₁, hsig, hgrows₁, hknows₁, hs₁⟩ :=
    h.interned (s := .func [] [basic .string] false) rfl (by simpa [Shape.components] using hstring) (by simp)
  have hfunc : newFunc [] [basic .string] false tt = (.ok sig, tt₁) := by
    obtain ⟨hv, -⟩ | ⟨-, hrun⟩ := newFunc_cases [] [basic .string] false tt
    · cases hv
    · rw [hrun, hsig]
  let m : Method := { name := "Error", pkgPath := "", typ := sig }
  have hmerge : tt₁.mergeMethods [] [m] = .ok [m] := by
    refine mergeMethods_self ⟨by simp, by simp, show 1 ≤ maxMethods by decide⟩ ?_
    simp [m, hs₁, Shape.kind]
  obtain ⟨i, tt₂, hi, hgrows₂, hknows₂, hs₂⟩ :=
    hgrows₁.sound.interned (s := .interface [m]) rfl (by simpa [Shape.components] using hknows₁) (by simp)
  have hinterface : newInterface [] [m] tt₁ = (.ok i, tt₂) := (newInterface_ok hmerge).trans hi
  have hgrows₃ := hgrows₂.sound.newNamed "" "error"
  let error : TypeId := ⟨tt₂.types.size⟩
  let tt₃ : TypeTable := tt₂.pushed (.named "" "error" none []) {}
  have hs₃ : tt₃.shape error = .named "" "error" none [] := by rw [shape_pushed, if_pos rfl]
  have hi₃ : tt₃.shape i = .interface [m] := hgrows₃.shape_of_built hs₂ rfl (by simp)
  have hmeaning : tt₃.underlying? i = some i := by rw [underlying?, hi₃]
  obtain ⟨tt₄, hbind, hs₄⟩ := setUnderlying_ok hs₃ hmeaning
  have hgrows₄ : Grows tt₃ tt₄ := by
    have hgrows := hgrows₃.sound.setUnderlying (t := error) (hgrows₃.knows hknows₂)
    rw [show (newNamed "" "error" tt₂).2 = tt₃ from rfl, hbind] at hgrows
    exact hgrows
  have hreach₁ := Reaches.refl.after (.func [] [basic .string] false)
    (by simpa [Operation.handles] using hstring) (congrArg Prod.snd hfunc)
  have hreach₂ := hreach₁.after (.interface [] [m])
    (by simpa [Operation.handles] using hknows₁) (congrArg Prod.snd hinterface)
  have hreach₃ : Reaches tt tt₃ := hreach₂.step (.named "" "error") (by simp [Operation.handles])
  have hknowsError : tt₃.Knows error := knows_of_shape_ne (by simp [hs₃])
  have hreach₄ := hreach₃.after (.bind error i)
    (by simpa [Operation.handles] using ⟨hknowsError, hgrows₃.knows hknows₂⟩) (congrArg Prod.snd hbind)
  refine ⟨error, tt₄, ?_, hreach₄, i, sig, [], hs₄, ?_, ?_⟩
  · rw [newErrorType, run_granted hfunc, run_granted hinterface]
    show (do
      setUnderlying error i
      return error : TypeM TypeId) tt₃ = _
    rw [run_granted hbind]
    rfl
  · exact hgrows₄.shape_of_built hi₃ rfl (by simp)
  · exact ((hgrows₂.trans hgrows₃).trans hgrows₄).shape_of_built hs₁ rfl (by simp)

/-- The functions of the language itself can be made in every table. -/
theorem builtins_run (specs : List (String × Nat × Nat × Bool)) (h : tt.Sound) :
    ∃ functions tt', (specs.mapM fun (name, inputs, outputs, variadic) =>
      Object.builtin name inputs outputs variadic) tt = (.ok functions, tt') ∧ Reaches tt tt' ∧
        ∀ obj ∈ functions, obj.role = .builtin ∧ ∀ t, obj.typ = some t → tt'.Knows t := by
  induction specs generalizing tt with
  | nil => exact ⟨[], tt, rfl, .refl, fun _ hobj => absurd hobj List.not_mem_nil⟩
  | cons spec specs ih =>
      obtain ⟨name, inputs, outputs, variadic⟩ := spec
      obtain ⟨t, tt₁, ht, hgrows₁, hknows₁, -⟩ :=
        h.interned (s := .builtin name inputs outputs variadic) rfl (by simp [Shape.components]) (by simp)
      obtain ⟨functions, tt₂, hfunctions, hreach₂, hknown⟩ := ih hgrows₁.sound
      have hbuiltin : Object.builtin name inputs outputs variadic tt =
          (.ok { name, role := .builtin, typ := some t }, tt₁) := by
        rw [Object.builtin, run_granted (show newBuiltin name inputs outputs variadic tt = (.ok t, tt₁) from ht)]
        rfl
      have hreach₁ := Reaches.refl.after (.builtin name inputs outputs variadic) (by simp [Operation.handles])
        (congrArg Prod.snd ht)
      refine ⟨{ name, role := .builtin, typ := some t } :: functions, tt₂, ?_, hreach₁.trans hreach₂, ?_⟩
      · rw [List.mapM_cons, run_granted hbuiltin, run_granted hfunctions]
        rfl
      · intro obj hobj
        rcases List.mem_cons.1 hobj with rfl | hobj
        · refine ⟨rfl, fun u hu => ?_⟩
          cases hu
          exact (hreach₂.grows hgrows₁.sound).knows hknows₁
        · exact hknown obj hobj

/-- The predeclared types that bear the name of their kind. -/
def kindTypes : List Object :=
  predeclaredKinds.map fun k => .predeclaredType k.name (basic k)

/-- The predeclared names other than functions. -/
def predeclaredNames (any error : TypeId) : List Object :=
  kindTypes
    ++ [.predeclaredType "byte" (basic .uint8), .predeclaredType "rune" (basic .int32),
        .predeclaredType "any" any, .predeclaredType "error" error,
        .truth "true", .truth "false", .nil]

theorem knows_basic (h : tt.Sound) {k : Kind} (hk : k.isBasic = true) : tt.Knows (basic k) := by
  refine knows_of_shape_ne ?_
  rw [h.basics k hk]
  rintro heq
  cases heq
  cases hk

/-- The types of the predeclared names are known. -/
theorem knows_predeclaredNames (h : tt.Sound) {any error : TypeId} (hany : tt.Knows any) (herror : tt.Knows error) :
    ∀ obj ∈ predeclaredNames any error, ∀ t, obj.typ = some t → tt.Knows t := by
  intro obj hobj t ht
  rw [predeclaredNames, List.mem_append] at hobj
  rcases hobj with hobj | hobj
  · obtain ⟨k, hk, rfl⟩ := List.mem_map.1 hobj
    cases ht
    have hbasic : k ∈ Kind.basics := (List.mem_filter.1 hk).1
    rw [Kind.basics, List.mem_filter] at hbasic
    exact knows_basic h hbasic.2
  · simp only [List.mem_cons, List.not_mem_nil, or_false] at hobj
    rcases hobj with rfl | rfl | rfl | rfl | rfl | rfl | rfl
    all_goals cases ht
    · exact knows_basic h rfl
    · exact knows_basic h rfl
    · exact hany
    · exact herror
    · exact knows_basic h rfl
    · exact knows_basic h rfl
    · exact knows_basic h rfl

/-- The universe can be made in every table. -/
theorem newUniverse_run (h : tt.Sound) :
    ∃ any error functions tt', newUniverse tt = (.ok (predeclaredNames any error ++ functions), tt') ∧ Reaches tt tt' ∧
      tt'.shape any = .interface [] ∧ tt'.IsError error ∧ (∀ obj ∈ functions, obj.role = .builtin) ∧
      ∀ obj ∈ predeclaredNames any error ++ functions, ∀ t, obj.typ = some t → tt'.Knows t := by
  have hmerge : tt.mergeMethods [] [] = .ok [] := mergeMethods_self ⟨.nil, .nil, Nat.zero_le _⟩ (by simp)
  obtain ⟨any, tt₁, hany, hgrows₁, hknows₁, hs₁⟩ :=
    h.interned (s := .interface []) rfl (by simp [Shape.components]) (by simp)
  have hinterface := (newInterface_ok hmerge).trans hany
  have hreach₁ := Reaches.refl.after (.interface [] []) (by simp [Operation.handles]) (congrArg Prod.snd hinterface)
  obtain ⟨error, tt₂, herror, hreach₂, his⟩ := newErrorType_run hgrows₁.sound
  have hgrows₂ := hreach₂.grows hgrows₁.sound
  obtain ⟨functions, tt₃, hfunctions, hreach₃, hknown⟩ := builtins_run builtins hgrows₂.sound
  have hgrows₃ := hreach₃.grows hgrows₂.sound
  have his₃ := his.extends hgrows₃.toExtends
  refine ⟨any, error, functions, tt₃, ?_, (hreach₁.trans hreach₂).trans hreach₃, ?_, his₃,
    fun obj hobj => (hknown obj hobj).1, ?_⟩
  · rw [newUniverse, run_granted hinterface, run_granted herror, run_granted hfunctions]
    rfl
  · exact (hgrows₂.trans hgrows₃).shape_of_built hs₁ rfl (by simp)
  · intro obj hobj t ht
    obtain ⟨i, sig, ms, hs, -⟩ := his₃
    have herror₃ : tt₃.Knows error := knows_of_shape_ne (by simp [hs])
    rcases List.mem_append.1 hobj with hobj | hobj
    · exact knows_predeclaredNames hgrows₃.sound (hgrows₃.knows (hgrows₂.knows hknows₁)) herror₃ obj hobj t ht
    · exact (hknown obj hobj).2 t ht

theorem new_eq {any error : TypeId} {functions : List Object} {tt' : TypeTable}
    (hrun : newUniverse tt = (.ok (predeclaredNames any error ++ functions), tt')) :
    Package.new tt = { types := tt', outer := predeclaredNames any error ++ functions } := by
  show ({ types := (newUniverse tt).2, outer := (newUniverse tt).1.toOption.getD [] } : Package) = _
  rw [hrun]
  rfl

/-- A package over a sound table. -/
theorem new_run (h : tt.Sound) :
    ∃ any error functions, (Package.new tt).outer = predeclaredNames any error ++ functions ∧
      Reaches tt (Package.new tt).types ∧ (Package.new tt).types.IsError error := by
  obtain ⟨any, error, functions, tt', hrun, hreach, -, herror, -⟩ := newUniverse_run h
  rw [new_eq hrun]
  exact ⟨any, error, functions, rfl, hreach, herror⟩

/-- In a new package the types of all names are known. -/
theorem knows_outer (h : tt.Sound) :
    ∀ obj ∈ (Package.new tt).outer, ∀ t, obj.typ = some t → (Package.new tt).types.Knows t := by
  obtain ⟨any, error, functions, tt', hrun, -, -, -, -, hknown⟩ := newUniverse_run h
  rw [new_eq hrun]
  exact hknown

/-! ### Looking names up -/

theorem find?_kindTypes :
    ∀ k ∈ predeclaredKinds, kindTypes.find? (·.name == k.name) = some (.predeclaredType k.name (basic k)) := by
  decide +kernel

theorem find?_predeclared_basic {k : Kind} (hk : k ∈ predeclaredKinds) (any error : TypeId)
    (functions : List Object) :
    (predeclaredNames any error ++ functions).find? (·.name == k.name) =
      some (.predeclaredType k.name (basic k)) := by
  rw [predeclaredNames, List.append_assoc, List.find?_append, find?_kindTypes k hk]
  rfl

theorem find?_predeclared_error (any error : TypeId) (functions : List Object) :
    (predeclaredNames any error ++ functions).find? (·.name == "error") =
      some (.predeclaredType "error" error) := by
  have hkind : kindTypes.find? (·.name == "error") = none := by decide +kernel
  rw [predeclaredNames, List.append_assoc, List.find?_append, hkind]
  rfl

end GoSource
