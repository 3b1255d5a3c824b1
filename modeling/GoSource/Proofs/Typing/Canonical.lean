import GoSource.Proofs.Typing.Reachable

/-!
# One handle for one type

A type that is not declared is known by how it is built: asking twice for the same type gives the same handle,
whatever happened in between, and different types have different handles.  Declared types are new each time.

* **`Request`**: everything that can be asked of a table, declared types apart.
* **`Request.shape?`**: the shape that a request is interned under; `run_eq_intern` and `run_refused_of_shape?` say
  that this is all a request does.
* **`Request.Same`**: two requests, perhaps at different times, ask for the same type.
* **`handles_canonical`**: handles agree exactly where requests do.
-/

namespace GoSource.TypeTable

/-- What can be asked of a table: a predeclared type, or a type built from others. -/
inductive Request where
  | basic (kind : Kind) (isBasic : kind.isBasic = true)
  | array (elem : TypeId) (length : Nat)
  | slice (elem : TypeId)
  | pointer (elem : TypeId)
  | chan (elem : TypeId) (dir : ChanDir)
  | map (key elem : TypeId)
  | func (params results : List TypeId) (variadic : Bool)
  | interface (embedded : List TypeId) (direct : List Method)
  | builtin (name : String) (inputs outputs : Nat) (variadic : Bool)

namespace Request

/-- The handles that a request is given. -/
def handles : Request → List TypeId
  | .array e _ | .slice e | .pointer e | .chan e _ => [e]
  | .map k e => [k, e]
  | .func ps rs _ => ps ++ rs
  | .interface embedded direct => embedded ++ direct.map Method.typ
  | .basic .. | .builtin .. => []

/-- A request is made with handles that the table has given out. -/
def Known (tt : TypeTable) (c : Request) : Prop :=
  ∀ t ∈ c.handles, tt.Knows t

/-- What the table does about a request. -/
def run : Request → TypeM TypeId
  | .basic k _ => pure (TypeTable.basic k)
  | .array e n => newArray e n
  | .slice e => newSlice e
  | .pointer e => newPointer e
  | .chan e d => newChan e d
  | .map k e => newMap k e
  | .func ps rs v => newFunc ps rs v
  | .interface embedded direct => newInterface embedded direct
  | .builtin name i o v => newBuiltin name i o v

/-- A request to `tt` and one to `tt'` ask for the same type: the same family and the same parts.  An interface is
its set of methods, given directly or by embedding. -/
def Same (tt tt' : TypeTable) : Request → Request → Prop
  | .basic k _, .basic k' _ => k = k'
  | .array e n, .array e' n' => e = e' ∧ n = n'
  | .slice e, .slice e' => e = e'
  | .pointer e, .pointer e' => e = e'
  | .chan e d, .chan e' d' => e = e' ∧ d = d'
  | .map k e, .map k' e' => k = k' ∧ e = e'
  | .func ps rs v, .func ps' rs' v' => ps = ps' ∧ rs = rs' ∧ v = v'
  | .interface embedded direct, .interface embedded' direct' =>
      ∀ m, (m ∈ direct ∨ ∃ t ∈ embedded, m ∈ tt.methods t) ↔ (m ∈ direct' ∨ ∃ t ∈ embedded', m ∈ tt'.methods t)
  | .builtin name i o v, .builtin name' i' o' v' => name = name' ∧ i = i' ∧ o = o' ∧ v = v'
  | _, _ => False

/-- The shape of the type that is asked for; nothing if the request is refused without looking for it. -/
def shape? (tt : TypeTable) : Request → Option Shape
  | .basic k _ => some (.basic k)
  | .array e n => some (.array e n)
  | .slice e => some (.slice e)
  | .pointer e => some (.pointer e)
  | .chan e d => some (.chan e d)
  | .map k e => some (.map k e)
  | .func ps rs v =>
      if v = true ∧ ps.getLast?.map tt.kind ≠ some .slice then none else some (.func ps rs v)
  | .interface embedded direct => (tt.mergeMethods embedded direct).toOption.map .interface
  | .builtin name i o v => some (.builtin name i o v)

variable {tt tt' : TypeTable} {c c' : Request} {s s' : Shape} {t : TypeId}

/-! ### What a request does -/

theorem shape?_interface {embedded : List TypeId} {direct : List Method} :
    shape? tt (.interface embedded direct) = some s ↔
      ∃ ms, tt.mergeMethods embedded direct = .ok ms ∧ s = .interface ms := by
  rw [shape?]
  cases tt.mergeMethods embedded direct with
  | error fault => simp [Except.toOption]
  | ok ms => simp [Except.toOption, eq_comm]

theorem shape?_func {ps rs : List TypeId} {v : Bool} :
    shape? tt (.func ps rs v) = some s ↔
      (v = true → ps.getLast?.map tt.kind = some .slice) ∧ s = .func ps rs v := by
  rw [shape?]
  split
  · next h => simp [h.1, h.2]
  · next h =>
      have hv : v = true → ps.getLast?.map tt.kind = some .slice := fun hv =>
        Decidable.of_not_not fun hne => h ⟨hv, hne⟩
      constructor
      · intro hs
        cases hs
        exact ⟨hv, rfl⟩
      · rintro ⟨-, rfl⟩
        rfl

/-- A request is interned under its shape. -/
theorem run_eq_intern (h : tt.Sound) (hs : c.shape? tt = some s) : c.run tt = intern s tt := by
  cases c with
  | basic k hk =>
      cases hs
      have hvalid : Shape.basic k ≠ .basic .invalid := by
        intro heq
        cases heq
        cases hk
      have hknows : tt.Knows (TypeTable.basic k) := knows_of_shape_ne (h.basics k hk ▸ hvalid)
      rw [intern_found (h.find?_eq (h.basics k hk) hknows rfl)]
      rfl
  | func ps rs v =>
      obtain ⟨hv, rfl⟩ := shape?_func.1 hs
      obtain ⟨hvariadic, hne, -⟩ | ⟨-, hrun⟩ := newFunc_cases ps rs v tt
      · exact absurd (hv hvariadic) hne
      · exact hrun
  | interface embedded direct =>
      obtain ⟨ms, hms, rfl⟩ := shape?_interface.1 hs
      exact newInterface_ok hms
  | array | slice | pointer | chan | map | builtin =>
      cases hs
      rfl

/-- A request without a shape is refused, and nothing changes. -/
theorem run_refused_of_shape? (hs : c.shape? tt = none) : ∃ fault, c.run tt = (.error fault, tt) := by
  cases c with
  | func ps rs v =>
      obtain ⟨-, -, hrun⟩ | ⟨hv, -⟩ := newFunc_cases ps rs v tt
      · exact ⟨_, hrun⟩
      · rw [shape?_func.2 ⟨hv, rfl⟩] at hs
        cases hs
  | interface embedded direct =>
      obtain ⟨fault, hrun⟩ | ⟨ms, hms, -⟩ := newInterface_cases embedded direct tt
      · exact ⟨fault, hrun⟩
      · rw [shape?_interface.2 ⟨ms, hms, rfl⟩] at hs
        cases hs
  | basic | array | slice | pointer | chan | map | builtin => cases hs

theorem isDeclared_shape? (hs : c.shape? tt = some s) : s.isDeclared = false := by
  cases c with
  | func ps rs v =>
      obtain ⟨-, rfl⟩ := shape?_func.1 hs
      rfl
  | interface embedded direct =>
      obtain ⟨ms, -, rfl⟩ := shape?_interface.1 hs
      rfl
  | basic | array | slice | pointer | chan | map | builtin =>
      cases hs
      rfl

/-- The parts of what is asked for are types that the table knows. -/
theorem knows_components (h : tt.Sound) (hc : c.Known tt) (hs : c.shape? tt = some s) :
    ∀ part ∈ s.components, tt.Knows part := by
  cases c with
  | func ps rs v =>
      obtain ⟨-, rfl⟩ := shape?_func.1 hs
      exact hc
  | interface embedded direct =>
      obtain ⟨ms, hms, rfl⟩ := shape?_interface.1 hs
      exact h.knows_merged hc hms
  | basic | builtin =>
      cases hs
      intro part hpart
      cases hpart
  | array | slice | pointer | chan | map =>
      cases hs
      exact hc

/-- A request that is granted answers with a type of its shape. -/
theorem run_granted_shape (h : tt.Sound) (hc : c.Known tt) (hrun : c.run tt = (.ok t, tt')) :
    ∃ s, c.shape? tt = some s ∧ s.isDeclared = false ∧ Grows tt tt' ∧ tt'.Knows t ∧ tt'.shape t = s := by
  cases hs : c.shape? tt with
  | none =>
      obtain ⟨fault, hrefused⟩ := run_refused_of_shape? hs
      rw [hrefused] at hrun
      cases hrun
  | some s =>
      have hbuilt := isDeclared_shape? hs
      obtain ⟨hgrows, hanswer⟩ := h.intern hbuilt (knows_components h hc hs)
      rw [← run_eq_intern h hs, hrun] at hgrows hanswer
      exact ⟨s, rfl, hbuilt, hgrows, hanswer t rfl⟩

end Request

/-! ### The same request later -/

variable {tt tt' : TypeTable} {t : TypeId}

theorem Kinded.kind_eq_kindOf (h : tt.Kinded) (t : TypeId) : tt.kind t = tt.kindOf (tt.shape t) := by
  rw [kind]
  split
  · exact h.kind_eq t
  · next hbuilt => rw [kindOf_of_built (by simpa using hbuilt)]

/-- A kind that is known stays the same. -/
theorem Grows.kind_eq {k : Kind} (hgrows : Grows tt tt') (h : tt.Sound) (hk : tt.kind t = k) (hvalid : k ≠ .invalid) :
    tt'.kind t = k := by
  rw [h.kind_eq_kindOf] at hk
  rw [hgrows.sound.kind_eq_kindOf]
  cases hdeclared : (tt.shape t).isDeclared with
  | false =>
      have hne : tt.shape t ≠ .basic .invalid := by
        intro hs
        rw [hs] at hk
        exact hvalid hk.symm
      rw [hgrows.shape_of_built rfl hdeclared hne, kindOf_of_built hdeclared]
      rw [kindOf_of_built hdeclared] at hk
      exact hk
  | true =>
      cases hs : tt.shape t with
      | named pkgPath name bound ms =>
          rw [hs] at hk
          cases bound with
          | none => exact absurd hk.symm hvalid
          | some u =>
              obtain ⟨ms', hs'⟩ := hgrows.bound_eq hs
              rw [hs']
              exact hgrows.kind_of_shape hk hvalid
      | _ =>
          rw [hs] at hdeclared
          cases hdeclared

/-- An interface that can be embedded brings the same methods later. -/
theorem Extends.embeddedMethods_eq {ms : List Method} (hext : Extends tt tt') (h : tt.embeddedMethods t = .ok ms) :
    tt'.embeddedMethods t = .ok ms := by
  rw [embeddedMethods, underlyingShape?, underlying?] at h ⊢
  cases hs : tt.shape t with
  | named pkgPath name bound ms' =>
      cases bound with
      | none =>
          simp only [hs] at h
          cases h
      | some u =>
          obtain ⟨ms'', hs'⟩ := hext.bound_eq hs
          simp only [hs, hs', Option.map_some] at h ⊢
          cases hu : tt.shape u with
          | interface =>
              rw [hu] at h
              rw [hext.shape_of_built hu rfl (by simp)]
              exact h
          | _ =>
              rw [hu] at h
              cases h
  | interface =>
      simp only [hs, hext.shape_of_built hs rfl (by simp), Option.map_some] at h ⊢
      exact h
  | _ =>
      simp only [hs, Option.map_some] at h
      cases h

/-- Methods that can be merged are merged to the same list later. -/
theorem Extends.mergeMethods_eq {embedded : List TypeId} {direct ms : List Method} (hext : Extends tt tt')
    (h : tt.mergeMethods embedded direct = .ok ms) : tt'.mergeMethods embedded direct = .ok ms := by
  obtain ⟨inherited, merged, hinherited, htypes, hmerged, hlength, rfl⟩ := mergeMethods_eq_ok.1 h
  refine mergeMethods_eq_ok.2 ⟨inherited, merged, ?_, ?_, hmerged, hlength, rfl⟩
  · clear h htypes hmerged
    induction embedded generalizing inherited with
    | nil => exact hinherited
    | cons t embedded ih =>
        rw [List.mapM_cons, bind_eq_ok] at hinherited ⊢
        obtain ⟨ms, hms, hrest⟩ := hinherited
        obtain ⟨others, hothers, hcons⟩ := bind_eq_ok.1 hrest
        exact ⟨ms, hext.embeddedMethods_eq hms, bind_eq_ok.2 ⟨others, ih others hothers, hcons⟩⟩
  · intro m hm
    exact hext.kind_of_shape (htypes m hm) (by decide)

namespace Request

variable {c c' : Request} {s s' : Shape}

/-- A request keeps its shape: what it depends on in the table does not change any more. -/
theorem shape?_grows (h : tt.Sound) (hgrows : Grows tt tt') (hs : c.shape? tt = some s) : c.shape? tt' = some s := by
  cases c with
  | func ps rs v =>
      obtain ⟨hv, rfl⟩ := shape?_func.1 hs
      refine shape?_func.2 ⟨fun hvariadic => ?_, rfl⟩
      obtain ⟨p, hp, hkind⟩ := Option.map_eq_some_iff.1 (hv hvariadic)
      rw [hp, Option.map_some, hgrows.kind_eq h hkind (by decide)]
  | interface embedded direct =>
      obtain ⟨ms, hms, rfl⟩ := shape?_interface.1 hs
      exact shape?_interface.2 ⟨ms, hgrows.toExtends.mergeMethods_eq hms, rfl⟩
  | basic | array | slice | pointer | chan | map | builtin => exact hs

/-- Requests for the same type have the same shape, and no others have. -/
theorem shape?_eq_iff (hs : c.shape? tt = some s) (hs' : c'.shape? tt' = some s') :
    s = s' ↔ Same tt tt' c c' := by
  cases c with
  | interface embedded direct =>
      obtain ⟨ms, hms, rfl⟩ := shape?_interface.1 hs
      cases c' with
      | interface embedded' direct' =>
          obtain ⟨ms', hms', rfl⟩ := shape?_interface.1 hs'
          rw [Shape.interface.injEq, Same]
          have hmem (m : Method) := mem_mergeMethods (m := m) hms
          have hmem' (m : Method) := mem_mergeMethods (m := m) hms'
          constructor
          · rintro rfl m
            rw [← hmem, ← hmem']
          · intro hsame
            refine (mergeMethods_spec hms).1.ext (mergeMethods_spec hms').1 fun m => ?_
            rw [hmem, hmem']
            exact hsame m
      | func ps rs v =>
          obtain ⟨-, rfl⟩ := shape?_func.1 hs'
          simp [Same]
      | _ =>
          cases hs'
          simp [Same]
  | func ps rs v =>
      obtain ⟨-, rfl⟩ := shape?_func.1 hs
      cases c' with
      | interface embedded' direct' =>
          obtain ⟨ms', -, rfl⟩ := shape?_interface.1 hs'
          simp [Same]
      | func ps rs v =>
          obtain ⟨-, rfl⟩ := shape?_func.1 hs'
          simp [Same]
      | _ =>
          cases hs'
          simp [Same]
  | _ =>
      cases hs
      cases c' with
      | interface embedded' direct' =>
          obtain ⟨ms', -, rfl⟩ := shape?_interface.1 hs'
          simp [Same]
      | func ps rs v =>
          obtain ⟨-, rfl⟩ := shape?_func.1 hs'
          simp [Same]
      | _ =>
          cases hs'
          simp [Same]

end Request

/-! ### Handles -/

/-- A declared type gets a handle that the table has not given out before. -/
theorem newNamed_fresh (pkgPath name : String) (h : tt.Knows t) : (newNamed pkgPath name tt).1 ≠ t := by
  rintro rfl
  exact Nat.lt_irrefl _ h

theorem knows_newNamed (pkgPath name : String) (tt : TypeTable) :
    (newNamed pkgPath name tt).2.Knows (newNamed pkgPath name tt).1 :=
  knows_pushed.2 (.inl rfl)

/-- Handles are canonical.  A request that was granted is granted again with the same handle, whatever was done
since, and nothing changes; a request that is granted later has the same handle exactly if it asks for the same
type.  A declared type has a handle of its own: none that was given out before, and as it is known from then on,
none of a later declaration either. -/
theorem handles_canonical {target : Target} (h : Reaches (new target) tt) :
    (∀ c t tt', Request.Known tt c → c.run tt = (.ok t, tt') → ∀ tt₁, Reaches tt' tt₁ →
      tt₁.Knows t ∧ c.run tt₁ = (.ok t, tt₁) ∧
      ∀ c' t' tt₁', Request.Known tt₁ c' → c'.run tt₁ = (.ok t', tt₁') → (t = t' ↔ Request.Same tt tt₁ c c')) ∧
    ∀ pkgPath name, (∀ t, tt.Knows t → (newNamed pkgPath name tt).1 ≠ t) ∧
      ∀ tt₁, Reaches (newNamed pkgPath name tt).2 tt₁ → tt₁.Knows (newNamed pkgPath name tt).1 := by
  have hsound := (h.grows (sound_new target)).sound
  refine ⟨?_, fun pkgPath name => ⟨fun t ht => newNamed_fresh pkgPath name ht, ?_⟩⟩
  · intro c t tt' hc hrun tt₁ h₁
    obtain ⟨s, hs, hbuilt, hgrows, hknows, hshape⟩ := Request.run_granted_shape hsound hc hrun
    have hgrows₁ := h₁.grows hgrows.sound
    have hknows₁ : tt₁.Knows t := hgrows₁.knows hknows
    have hshape₁ : tt₁.shape t = s := (hgrows₁.shape_eq hknows (hshape ▸ hbuilt)).trans hshape
    refine ⟨hknows₁, ?_, ?_⟩
    · rw [Request.run_eq_intern hgrows₁.sound (Request.shape?_grows hsound (hgrows.trans hgrows₁) hs)]
      exact intern_found (hgrows₁.sound.find?_eq hshape₁ hknows₁ hbuilt)
    · intro c' t' tt₁' hc' hrun'
      obtain ⟨s', hs', -, hgrows', hknows', hshape'⟩ := Request.run_granted_shape hgrows₁.sound hc' hrun'
      have hshape₁' : tt₁'.shape t = s := (hgrows'.shape_eq hknows₁ (hshape₁ ▸ hbuilt)).trans hshape₁
      rw [← Request.shape?_eq_iff hs hs', ← hshape₁', ← hshape']
      constructor
      · rintro rfl
        rfl
      · exact hgrows'.sound.unique (hgrows'.knows hknows₁) hknows' (hshape₁' ▸ hbuilt)
  · intro tt₁ h₁
    exact (h₁.grows (hsound.newNamed pkgPath name).sound).knows (knows_newNamed pkgPath name tt)

/-- An interface by its methods, and by embedding it beside a method that it has. -/
theorem handles_canonical_interface :
    let a : Method := { name := "A", pkgPath := "", typ := ⟨26⟩ }
    let b : Method := { name := "B", pkgPath := "", typ := ⟨26⟩ }
    let tt := (newFunc [] [] false (new .amd64)).2
    let tt' := (intern (.interface [a, b]) tt).2
    newInterface [] [a, b] tt = (.ok ⟨27⟩, tt') ∧
      ∃ t tt₁', newInterface [⟨27⟩] [a] tt' = (.ok t, tt₁') ∧ t = ⟨27⟩ := by
  intro a b tt tt'
  have hreach : Reaches (new .amd64) tt := .step .refl (.func [] [] false) (by simp [Operation.handles])
  have hmerged : IsMerged [a, b] := ⟨by decide +kernel, by decide +kernel, by decide⟩
  have hrun : newInterface [] [a, b] tt = (.ok ⟨27⟩, tt') := by
    rw [newInterface_ok (mergeMethods_self hmerged (by decide +kernel))]
    exact granted_of_toOption (by decide +kernel)
  have hmerge : tt'.mergeMethods [⟨27⟩] [a] = .ok [a, b] := by
    refine mergeMethods_eq_ok.2 ⟨[[a, b]], [b, a], by decide +kernel, by decide +kernel, ?_, by decide, rfl⟩
    rw [List.mergeSort_of_pairwise (by decide +kernel)]
    decide +kernel
  obtain ⟨t, tt₁', hrun'⟩ := granted_intern (s := .interface [a, b]) (by simp) tt'
  rw [← newInterface_ok hmerge] at hrun'
  have hknows : tt.Knows ⟨26⟩ ∧ tt'.Knows ⟨26⟩ ∧ tt'.Knows ⟨27⟩ := by decide +kernel
  have hsame : Request.Same tt tt' (.interface [] [a, b]) (.interface [⟨27⟩] [a]) := by
    have hmethods : tt'.methods ⟨27⟩ = [a, b] := by decide +kernel
    intro m
    simp [hmethods]
  obtain ⟨-, -, hiff⟩ := (handles_canonical hreach).1 (.interface [] [a, b]) ⟨27⟩ tt'
    (by simp [Request.Known, Request.handles, a, b, hknows]) hrun tt' .refl
  refine ⟨hrun, t, tt₁', hrun', ((hiff (.interface [⟨27⟩] [a]) t tt₁' ?_ hrun').2 hsame).symm⟩
  simp [Request.Known, Request.handles, a, hknows]

end GoSource.TypeTable
