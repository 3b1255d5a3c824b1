import GoSource.Package.State
import GoSource.Proofs.Typing.Reachable

/-!
# Types that source text can write

Types made of the predeclared types and `error` by pointers, slices, arrays, maps, channels, functions and
interfaces with exported methods.

* **`Built`**: such a type, by the operations that made it.
* **`Writable`**: such a type, by its shape.
* **`Built.writable`**: the operations lead to the shapes.
-/

namespace GoSource

/-- An exported method: its name is an identifier that starts with an upper-case letter, and no package
qualifies it. -/
structure Method.Exported (m : Method) : Prop where
  pkgPath_eq : m.pkgPath = ""
  name_eq : ∃ c cs, m.name = String.ofList (c :: cs) ∧ Unicode.isUppercase c = true ∧ Lexeme.opensWord c = true ∧
    ∀ d ∈ cs, Lexeme.continuesWord d = true

namespace TypeTable

/-- The declared type `error`, as the universe has it. -/
structure IsError (tt : TypeTable) (error : TypeId) : Prop where
  shape_eq : ∃ i sig ms, tt.shape error = .named "" "error" (some i) ms ∧
    tt.shape i = .interface [{ name := "Error", pkgPath := "", typ := sig }] ∧
    tt.shape sig = .func [] [basic .string] false

/-- A type made by operations from the predeclared types and `error`, in a table that comes after `start`.  The type
`error` is there from the table `host` on. -/
inductive Built (start host : TypeTable) (error : TypeId) : TypeTable → TypeId → Prop where
  | basic {tt : TypeTable} {k : Kind} (hreach : Reaches start tt) (hk : k ∈ predeclaredKinds) :
      Built start host error tt (TypeTable.basic k)
  | error {tt : TypeTable} (hreach : Reaches host tt) : Built start host error tt error
  | later {tt : TypeTable} {t : TypeId} (h : Built start host error tt t) (op : Operation)
      (hknown : ∀ u ∈ op.handles, tt.Knows u) : Built start host error (op.run tt) t
  | pointer {tt tt' : TypeTable} {e t : TypeId} (he : Built start host error tt e)
      (hrun : newPointer e tt = (.ok t, tt')) : Built start host error tt' t
  | slice {tt tt' : TypeTable} {e t : TypeId} (he : Built start host error tt e)
      (hrun : newSlice e tt = (.ok t, tt')) : Built start host error tt' t
  | array {tt tt' : TypeTable} {e t : TypeId} {n : Nat} (he : Built start host error tt e)
      (hrun : newArray e n tt = (.ok t, tt')) : Built start host error tt' t
  | map {tt tt' : TypeTable} {k e t : TypeId} (hk : Built start host error tt k) (he : Built start host error tt e)
      (hrun : newMap k e tt = (.ok t, tt')) : Built start host error tt' t
  | chan {tt tt' : TypeTable} {e t : TypeId} {d : ChanDir} (he : Built start host error tt e)
      (hrun : newChan e d tt = (.ok t, tt')) : Built start host error tt' t
  | func {tt tt' : TypeTable} {ps rs : List TypeId} {v : Bool} {t : TypeId} (hreach : Reaches start tt)
      (hps : ∀ p ∈ ps, Built start host error tt p) (hrs : ∀ r ∈ rs, Built start host error tt r)
      (hrun : newFunc ps rs v tt = (.ok t, tt')) : Built start host error tt' t
  | interface {tt tt' : TypeTable} {embedded : List TypeId} {direct : List Method} {t : TypeId}
      (hreach : Reaches start tt) (hembedded : ∀ e ∈ embedded, Built start host error tt e)
      (hexported : ∀ m ∈ direct, m.Exported) (hdirect : ∀ m ∈ direct, Built start host error tt m.typ)
      (hrun : newInterface embedded direct tt = (.ok t, tt')) : Built start host error tt' t

/-- A type made of the predeclared types and `error`, by its shape. -/
inductive Writable (tt : TypeTable) (error : TypeId) : TypeId → Prop where
  | basic {k : Kind} (hk : k ∈ predeclaredKinds) : Writable tt error (TypeTable.basic k)
  | error (h : tt.IsError error) : Writable tt error error
  | pointer {e t : TypeId} (hs : tt.shape t = .pointer e) (he : Writable tt error e) : Writable tt error t
  | slice {e t : TypeId} (hs : tt.shape t = .slice e) (he : Writable tt error e) : Writable tt error t
  | array {e t : TypeId} {n : Nat} (hs : tt.shape t = .array e n) (he : Writable tt error e) : Writable tt error t
  | map {k e t : TypeId} (hs : tt.shape t = .map k e) (hk : Writable tt error k) (he : Writable tt error e) :
      Writable tt error t
  | chan {e t : TypeId} {d : ChanDir} (hs : tt.shape t = .chan e d) (he : Writable tt error e) :
      Writable tt error t
  | func {ps rs : List TypeId} {v : Bool} {t : TypeId} (hs : tt.shape t = .func ps rs v)
      (hps : ∀ p ∈ ps, Writable tt error p) (hrs : ∀ r ∈ rs, Writable tt error r)
      (hv : v = true → ∃ qs q e, ps = qs ++ [q] ∧ tt.shape q = .slice e) : Writable tt error t
  | interface {ms : List Method} {t : TypeId} (hs : tt.shape t = .interface ms) (hmerged : IsMerged ms)
      (hexported : ∀ m ∈ ms, m.Exported) (hms : ∀ m ∈ ms, Writable tt error m.typ)
      (hfunc : ∀ m ∈ ms, (tt.shape m.typ).kind = .func) : Writable tt error t

/-- What is known about a writable type `t`, by its shape. -/
def WritableShape (tt : TypeTable) (error t : TypeId) : Shape → Prop
  | .basic k => k ∈ predeclaredKinds ∧ t = TypeTable.basic k
  | .pointer e | .slice e | .array e _ | .chan e _ => Writable tt error e
  | .map k e => Writable tt error k ∧ Writable tt error e
  | .func ps rs v => (∀ p ∈ ps, Writable tt error p) ∧ (∀ r ∈ rs, Writable tt error r) ∧
      (v = true → ∃ qs q e, ps = qs ++ [q] ∧ tt.shape q = .slice e)
  | .interface ms => IsMerged ms ∧
      ∀ m ∈ ms, m.Exported ∧ Writable tt error m.typ ∧ (tt.shape m.typ).kind = .func
  | .builtin .. => False
  | .named pkgPath name bound _ => t = error ∧ pkgPath = "" ∧ name = "error" ∧ ∃ i sig, bound = some i ∧
      tt.shape i = .interface [{ name := "Error", pkgPath := "", typ := sig }] ∧
      tt.shape sig = .func [] [TypeTable.basic .string] false

variable {start host tt tt' : TypeTable} {error t u : TypeId}

/-! ### Later tables -/

theorem IsError.extends (h : tt.IsError error) (hext : Extends tt tt') : tt'.IsError error := by
  obtain ⟨i, sig, ms, herror, hi, hsig⟩ := h.shape_eq
  obtain ⟨ms', herror'⟩ := hext.bound_eq herror
  exact ⟨i, sig, ms', herror', hext.shape_of_built hi rfl (by simp), hext.shape_of_built hsig rfl (by simp)⟩

theorem Writable.extends (h : Writable tt error t) (hext : Extends tt tt') : Writable tt' error t := by
  induction h with
  | basic hk => exact .basic hk
  | error h => exact .error (h.extends hext)
  | pointer hs _ ih => exact .pointer (hext.shape_of_built hs rfl (by simp)) ih
  | slice hs _ ih => exact .slice (hext.shape_of_built hs rfl (by simp)) ih
  | array hs _ ih => exact .array (hext.shape_of_built hs rfl (by simp)) ih
  | map hs _ _ ihk ihe => exact .map (hext.shape_of_built hs rfl (by simp)) ihk ihe
  | chan hs _ ih => exact .chan (hext.shape_of_built hs rfl (by simp)) ih
  | func hs _ _ hv ihps ihrs =>
      refine .func (hext.shape_of_built hs rfl (by simp)) ihps ihrs ?_
      intro hvariadic
      obtain ⟨qs, q, e, rfl, hq⟩ := hv hvariadic
      exact ⟨qs, q, e, rfl, hext.shape_of_built hq rfl (by simp)⟩
  | interface hs hmerged hexported _ hfunc ih =>
      refine .interface (hext.shape_of_built hs rfl (by simp)) hmerged hexported ih ?_
      exact fun m hm => hext.kind_of_shape (hfunc m hm) (by decide)

/-! ### Shapes and kinds -/

theorem isBasic_of_predeclared {k : Kind} (h : k ∈ predeclaredKinds) : k.isBasic = true :=
  (List.mem_filter.1 (List.mem_of_mem_filter h)).2

section Sound

variable (hsound : tt.Sound)
include hsound

/-- What the shape of a writable type says about its parts. -/
theorem Writable.shape (h : Writable tt error t) : tt.WritableShape error t (tt.shape t) := by
  cases h with
  | basic hk =>
      rw [hsound.basics _ (isBasic_of_predeclared hk)]
      exact ⟨hk, rfl⟩
  | error h =>
      obtain ⟨i, sig, ms, hs, hi, hsig⟩ := h.shape_eq
      rw [hs]
      exact ⟨rfl, rfl, rfl, i, sig, rfl, hi, hsig⟩
  | pointer hs he | slice hs he | array hs he | chan hs he =>
      rw [hs]
      exact he
  | map hs hk he =>
      rw [hs]
      exact ⟨hk, he⟩
  | func hs hps hrs hv =>
      rw [hs]
      exact ⟨hps, hrs, hv⟩
  | interface hs hmerged hexported hms hfunc =>
      rw [hs]
      exact ⟨hmerged, fun m hm => ⟨hexported m hm, hms m hm, hfunc m hm⟩⟩

theorem Writable.knows (h : Writable tt error t) : tt.Knows t := by
  refine knows_of_shape_ne ?_
  intro hs
  have hshape := h.shape hsound
  rw [hs] at hshape
  exact absurd hshape.1 (by decide)

/-- The kind of a writable type: that of its shape, and an interface for `error`. -/
theorem Writable.kind_eq (h : Writable tt error t) :
    tt.kind t = if (tt.shape t).isDeclared then .interface else (tt.shape t).kind := by
  rw [kind]
  cases hs : tt.shape t with
  | named pkgPath name bound ms =>
      have hshape := h.shape hsound
      rw [hs] at hshape
      obtain ⟨-, rfl, rfl, i, sig, rfl, hi, -⟩ := hshape
      rw [hsound.kind_eq, hs]
      show (tt.shape i).kind = .interface
      rw [hi]
      rfl
  | _ => rfl

theorem Writable.valid (h : Writable tt error t) : tt.isInvalid t = false := by
  have hkind : tt.kind t ≠ .invalid := by
    have hshape := h.shape hsound
    rw [h.kind_eq hsound]
    cases hs : tt.shape t with
    | basic k =>
        rw [hs] at hshape
        rintro rfl
        exact absurd hshape.1 (by decide)
    | builtin =>
        rw [hs] at hshape
        exact hshape.elim
    | _ => simp [Shape.isDeclared, Shape.kind]
  simp [isInvalid, hkind]

/-- A writable type of the kind of slices is a slice. -/
theorem Writable.slice_of_kind (h : Writable tt error t) (hkind : tt.kind t = .slice) :
    ∃ e, tt.shape t = .slice e := by
  have hshape := h.shape hsound
  rw [h.kind_eq hsound] at hkind
  cases hs : tt.shape t with
  | slice e => exact ⟨e, rfl⟩
  | basic k =>
      rw [hs] at hshape hkind
      obtain rfl : k = .slice := hkind
      exact absurd hshape.1 (by decide)
  | _ =>
      rw [hs] at hkind
      cases hkind

/-- A writable type of the kind of functions is a function. -/
theorem Writable.func_of_kind (h : Writable tt error t) (hkind : (tt.shape t).kind = .func) :
    ∃ ps rs v, tt.shape t = .func ps rs v := by
  have hshape := h.shape hsound
  cases hs : tt.shape t with
  | func ps rs v => exact ⟨ps, rs, v, rfl⟩
  | basic k =>
      rw [hs] at hshape hkind
      obtain rfl : k = .func := hkind
      exact absurd hshape.1 (by decide)
  | _ =>
      rw [hs] at hkind
      cases hkind

/-- The methods that a writable type brings into an interface. -/
theorem Writable.embedded {ms : List Method} (h : Writable tt error t) (hms : tt.embeddedMethods t = .ok ms) :
    ∀ m ∈ ms, m.Exported ∧ Writable tt error m.typ := by
  have hshape := h.shape hsound
  rw [embeddedMethods, underlyingShape?, underlying?] at hms
  cases hs : tt.shape t with
  | named pkgPath name bound ms' =>
      rw [hs] at hshape
      obtain ⟨-, rfl, rfl, i, sig, rfl, hi, hsig⟩ := hshape
      simp only [hs, Option.map_some, hi] at hms
      cases hms
      intro m hm
      rw [List.mem_singleton] at hm
      subst hm
      have hname : "Error" = String.ofList ('E' :: "rror".toList) := by decide
      have hcontinues : "rror".toList.all Lexeme.continuesWord = true := by decide +kernel
      refine ⟨⟨rfl, 'E', "rror".toList, hname, by decide +kernel, by decide +kernel, List.all_eq_true.1 hcontinues⟩, ?_⟩
      refine .func hsig (by simp) ?_ (by simp)
      intro r hr
      rw [List.mem_singleton] at hr
      subst hr
      exact .basic (by decide)
  | interface ms' =>
      rw [hs] at hshape
      simp only [hs, Option.map_some] at hms
      cases hms
      exact fun m hm => ⟨(hshape.2 m hm).1, (hshape.2 m hm).2.1⟩
  | _ =>
      simp only [hs, Option.map_some] at hms
      cases hms

/-- A built type that is writable is found by its shape. -/
theorem Writable.found {s : Shape} (h : Writable tt error t) (hs : tt.shape t = s) (hbuilt : s.isDeclared = false) :
    intern s tt = (.ok t, tt) :=
  intern_found (hsound.find?_eq hs (h.knows hsound) hbuilt)

end Sound

/-! ### What the operations make -/

/-- Interning a shape whose parts are writable. -/
theorem Grows.interned {s : Shape} (h : Grows start tt) (hbuilt : s.isDeclared = false)
    (hparts : ∀ part ∈ s.components, Writable tt error part) (hrun : intern s tt = (.ok t, tt')) :
    Grows start tt' ∧ Extends tt tt' ∧ tt'.shape t = s ∧ ∀ part ∈ s.components, Writable tt' error part := by
  have hknown : ∀ part ∈ s.components, tt.Knows part := by
    intro part hpart
    exact (hparts part hpart).knows h.sound 
  obtain ⟨hgrows, hanswer⟩ := h.sound.intern hbuilt hknown
  rw [hrun] at hgrows hanswer
  refine ⟨h.trans hgrows, hgrows.toExtends, (hanswer t rfl).2, ?_⟩
  exact fun part hpart => (hparts part hpart).extends hgrows.toExtends

/-- What is made by operations is writable. -/
theorem Built.writable (h : Built start host error tt t) (hsound : start.Sound) (hhost : Reaches start host)
    (herror : host.IsError error) : Grows start tt ∧ Writable tt error t := by
  induction h with
  | basic hreach hk => exact ⟨hreach.grows hsound, .basic hk⟩
  | error hreach =>
      have hgrows := hhost.grows hsound
      have hlater := hreach.grows hgrows.sound
      exact ⟨hgrows.trans hlater, .error (herror.extends hlater.toExtends)⟩
  | later _ op hknown ih =>
      obtain ⟨hgrows, hwritable⟩ := ih
      have hstep := hgrows.sound.run op hknown
      exact ⟨hgrows.trans hstep, hwritable.extends hstep.toExtends⟩
  | @pointer tt tt' e t _ hrun ih =>
      obtain ⟨hgrows, -, hs, hparts⟩ := ih.1.interned (s := .pointer e) rfl (by simpa [Shape.components] using ih.2) hrun
      exact ⟨hgrows, .pointer hs (hparts e (by simp [Shape.components]))⟩
  | @slice tt tt' e t _ hrun ih =>
      obtain ⟨hgrows, -, hs, hparts⟩ := ih.1.interned (s := .slice e) rfl (by simpa [Shape.components] using ih.2) hrun
      exact ⟨hgrows, .slice hs (hparts e (by simp [Shape.components]))⟩
  | @array tt tt' e t n _ hrun ih =>
      obtain ⟨hgrows, -, hs, hparts⟩ := ih.1.interned (s := .array e n) rfl (by simpa [Shape.components] using ih.2) hrun
      exact ⟨hgrows, .array hs (hparts e (by simp [Shape.components]))⟩
  | @chan tt tt' e t d _ hrun ih =>
      obtain ⟨hgrows, -, hs, hparts⟩ := ih.1.interned (s := .chan e d) rfl (by simpa [Shape.components] using ih.2) hrun
      exact ⟨hgrows, .chan hs (hparts e (by simp [Shape.components]))⟩
  | @map tt tt' k e t _ _ hrun ihk ihe =>
      obtain ⟨hgrows, -, hs, hparts⟩ := ihk.1.interned (s := .map k e) rfl
        (by simpa [Shape.components] using ⟨ihk.2, ihe.2⟩) hrun
      exact ⟨hgrows, .map hs (hparts k (by simp [Shape.components])) (hparts e (by simp [Shape.components]))⟩
  | @func tt tt' ps rs v t hreach _ _ hrun ihps ihrs =>
      have hgrows := hreach.grows hsound
      obtain ⟨-, -, hrefused⟩ | ⟨hlast, hintern⟩ := newFunc_cases ps rs v tt
      · rw [hrefused] at hrun
        cases hrun
      · rw [hintern] at hrun
        have hwritable : ∀ part ∈ ps ++ rs, Writable tt error part := by
          intro part hpart
          rcases List.mem_append.1 hpart with hp | hr
          · exact (ihps part hp).2
          · exact (ihrs part hr).2
        obtain ⟨hgrows', hext, hs, hparts⟩ := hgrows.interned (s := .func ps rs v) rfl hwritable hrun
        refine ⟨hgrows', .func hs (fun p hp => hparts p (List.mem_append_left _ hp))
          (fun r hr => hparts r (List.mem_append_right _ hr)) ?_⟩
        intro hv
        obtain ⟨q, hq, hkind⟩ := Option.map_eq_some_iff.1 (hlast hv)
        obtain ⟨qs, rfl⟩ := List.getLast?_eq_some_iff.1 hq
        obtain ⟨e, hslice⟩ := (ihps q (by simp)).2.slice_of_kind hgrows.sound hkind
        exact ⟨qs, q, e, rfl, hext.shape_of_built hslice rfl (by simp)⟩
  | @interface tt tt' embedded direct t hreach _ hexported _ hrun ihembedded ihdirect =>
      have hgrows := hreach.grows hsound
      obtain ⟨fault, hrefused⟩ | ⟨ms, hmerge, hintern⟩ := newInterface_cases embedded direct tt
      · rw [hrefused] at hrun
        cases hrun
      · rw [hintern] at hrun
        obtain ⟨hmerged, hspec⟩ := mergeMethods_spec hmerge
        have hmethod : ∀ m ∈ ms, m.Exported ∧ Writable tt error m.typ := by
          intro m hm
          obtain ⟨-, hdirect | ⟨e, he, ms', hms', hm'⟩⟩ := hspec m hm
          · exact ⟨hexported m hdirect, (ihdirect m hdirect).2⟩
          · exact (ihembedded e he).2.embedded hgrows.sound hms' m hm'
        have hwritable : ∀ part ∈ ms.map Method.typ, Writable tt error part := by
          intro part hpart
          obtain ⟨m, hm, rfl⟩ := List.mem_map.1 hpart
          exact (hmethod m hm).2
        obtain ⟨hgrows', hext, hs, hparts⟩ := hgrows.interned (s := .interface ms) rfl hwritable hrun
        refine ⟨hgrows', .interface hs hmerged (fun m hm => (hmethod m hm).1)
          (fun m hm => hparts m.typ (List.mem_map_of_mem hm)) ?_⟩
        exact fun m hm => hext.kind_of_shape (hspec m hm).1 (by decide)

end TypeTable

end GoSource
