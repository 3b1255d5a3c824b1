import GoSource.Package.State
import GoSource.Proofs.Typing.Canonical

/-!
# Why requests are refused

A request for a type is refused for few reasons, if it is made with types that the table knows and that are of
the right kind.

* **`Methodical`**: the methods of all interfaces are functions.  **`Regular`** tables are sound and methodical; all
  that can be reached are.
* `array_refused`, `mergeMethods_refused`, `addMethod_refused`: what is left when the parts are in order.
* `shape_intern_of_knows`, `Grows.isInvalid`: what building a type leaves as it is.
-/

namespace GoSource

/-- Faults of type construction that a source text can cause. -/
def TypeFault.isLocal : TypeFault → Bool
  | .arrayTooLarge .. | .duplicateMethod _ | .notAnInterface _ | .incompleteEmbedded _ => true
  | _ => false

namespace TypeTable

variable {tt tt' : TypeTable} {t u : TypeId} {s : Shape}

/-! ### Built types -/

/-- Interning leaves the types as they are that are there. -/
theorem shape_intern_of_knows (s : Shape) (ht : tt.Knows t) : (intern s tt).2.shape t = tt.shape t := by
  cases hfind : tt.find? s with
  | some u => rw [intern_found hfind]
  | none =>
      obtain ⟨outcome, tt', -, hrelaid, ⟨fault, -, hrun⟩ | ⟨l, -, hrun⟩⟩ := intern_unfound hfind
      · rw [hrun]
        exact hrelaid.shape_eq t
      · rw [hrun]
        exact (shape_pushed_of_knows s l (hrelaid.extends.knows ht)).trans (hrelaid.shape_eq t)

/-- Interning adds no shape but the one it is asked for. -/
theorem shape_intern_cases (s : Shape) (tt : TypeTable) (t : TypeId) :
    (intern s tt).2.shape t = tt.shape t ∨ (intern s tt).2.shape t = s := by
  cases hfind : tt.find? s with
  | some u =>
      rw [intern_found hfind]
      exact .inl rfl
  | none =>
      obtain ⟨outcome, tt', -, hrelaid, ⟨fault, -, hrun⟩ | ⟨l, -, hrun⟩⟩ := intern_unfound hfind
      · rw [hrun]
        exact .inl (hrelaid.shape_eq t)
      · rw [hrun]
        obtain ⟨-, hnew⟩ | hold := shape_pushed_cases tt' s l t
        · exact .inr hnew
        · exact .inl (hold.trans (hrelaid.shape_eq t))

/-- An array is refused only for its size. -/
theorem array_refused {e : TypeId} {n : Nat} {fault : TypeFault} (h : (newArray e n tt).1 = .error fault) :
    fault.isLocal = true := by
  have hlayout (tt : TypeTable) :
      (Shape.layout tt.target (fun part => completed part) (.array e n) tt).1 = .error fault → fault.isLocal = true := by
    intro hrefused
    by_cases hmax : tt.target.maxSize < n
    · have hrun : Shape.layout tt.target (fun part => completed part) (.array e n) tt =
          (.error (.arrayTooLarge n tt.target.maxSize), tt) := by
        rw [Shape.layout, if_pos hmax]
        rfl
      rw [hrun] at hrefused
      cases hrefused
      rfl
    · have hrun : Shape.layout tt.target (fun part => completed part) (.array e n) tt =
          ((completed e tt).1.array tt.target n, (completed e tt).2) := by
        rw [Shape.layout, if_neg hmax]
        show (MonadExcept.ofExcept ((completed e tt).1.array tt.target n) : TypeM Layout) (completed e tt).2 = _
        cases (completed e tt).1.array tt.target n with
        | error fault => rfl
        | ok l => rfl
      rw [hrun] at hrefused
      dsimp only at hrefused
      unfold Layout.array at hrefused
      split at hrefused
      · cases hrefused
        rfl
      · cases hrefused
  rw [newArray] at h
  cases hfind : tt.find? (.array e n) with
  | some u =>
      rw [intern_found hfind] at h
      cases h
  | none =>
      obtain ⟨outcome, tt', hout, -, ⟨fault', hfault, hrun⟩ | ⟨l, -, hrun⟩⟩ := intern_unfound hfind
      · rw [hrun] at h
        cases h
        refine hlayout tt ?_
        rw [hout, hfault]
      · rw [hrun] at h
        cases h

/-! ### Methods of interfaces -/

/-- The methods of interfaces are functions. -/
def Methodical (tt : TypeTable) : Prop :=
  ∀ (t : TypeId) (ms : List Method) (m : Method), tt.shape t = .interface ms → m ∈ ms → (tt.shape m.typ).kind = .func

/-- A larger table is methodical if its new interfaces are made of functions. -/
theorem Methodical.extend (h : tt.Methodical) (hext : Extends tt tt')
    (hnew : ∀ t ms, tt'.shape t = .interface ms → tt.shape t = .interface ms ∨ ∀ m ∈ ms, (tt.shape m.typ).kind = .func) :
    tt'.Methodical := by
  intro t ms m hs hm
  refine hext.kind_of_shape ?_ (by decide)
  rcases hnew t ms hs with hold | hfunc
  · exact h t ms m hold hm
  · exact hfunc m hm

theorem Methodical.intern (h : tt.Methodical) (hext : Extends tt (intern s tt).2)
    (hfunc : ∀ ms, s = .interface ms → ∀ m ∈ ms, (tt.shape m.typ).kind = .func) : (intern s tt).2.Methodical := by
  refine h.extend hext fun t ms hs => ?_
  rcases shape_intern_cases s tt t with hold | hnew
  · exact .inl (hold.symm.trans hs)
  · exact .inr (hfunc ms (hnew.symm.trans hs))

/-- What changes a declared type makes no interface. -/
theorem Methodical.redeclare (h : tt.Methodical) {f : TypeInfo → TypeInfo} (hext : Extends tt (tt.update t f))
    (hdeclared : ((f (tt.info t)).shape).isDeclared = true) : (tt.update t f).Methodical := by
  refine h.extend hext fun s ms hs => .inl ?_
  rw [shape_update] at hs
  split at hs
  · rw [hs] at hdeclared
    cases hdeclared
  · exact hs

/-- Every operation on known types keeps the methods of interfaces functions. -/
theorem Methodical.run (h : tt.Methodical) (hsound : tt.Sound) (op : Operation) (hknown : ∀ t ∈ op.handles, tt.Knows t) :
    (op.run tt).Methodical := by
  have hgrows : Grows tt (op.run tt) := hsound.run op hknown
  have hbuilt {s : Shape} (hrun : op.run tt = (TypeTable.intern s tt).2) (hs : ∀ ms, s ≠ .interface ms) :
      (op.run tt).Methodical := by
    rw [hrun] at hgrows ⊢
    exact h.intern hgrows.toExtends fun ms heq => absurd heq (hs ms)
  cases op with
  | array | slice | pointer | chan | map | builtin => exact hbuilt rfl (by simp)
  | func ps rs v =>
      obtain ⟨-, -, hrun⟩ | ⟨-, hrun⟩ := newFunc_cases ps rs v tt
      · rw [Operation.run, hrun]
        exact h
      · exact hbuilt (congrArg Prod.snd hrun) (by simp)
  | interface embedded direct =>
      obtain ⟨fault, hrun⟩ | ⟨ms, hmerge, hrun⟩ := newInterface_cases embedded direct tt
      · rw [Operation.run, hrun]
        exact h
      · rw [Operation.run, hrun] at hgrows ⊢
        refine h.intern hgrows.toExtends fun ms' heq m hm => ?_
        cases heq
        exact ((mergeMethods_spec hmerge).2 m hm).1
  | named pkgPath name =>
      refine h.extend hgrows.toExtends fun t ms hs => .inl ?_
      obtain ⟨-, hnew⟩ | hold := shape_pushed_cases tt (.named pkgPath name none []) {} t
      · cases hnew.symm.trans hs
      · exact hold.symm.trans hs
  | bind t meaning =>
      obtain ⟨fault, hrun⟩ | ⟨pkgPath, name, ms, u, -, -, hrun⟩ := setUnderlying_cases t meaning tt
      · rw [Operation.run, hrun]
        exact h
      · rw [Operation.run, hrun] at hgrows ⊢
        exact h.redeclare hgrows.toExtends rfl
  | method t m =>
      obtain ⟨outcome, hrun⟩ | ⟨pkgPath, name, bound, ms, -, hrun⟩ := addMethod_cases t m tt
      · rw [Operation.run, hrun]
        exact h
      · rw [Operation.run, hrun] at hgrows ⊢
        exact h.redeclare hgrows.toExtends rfl
  | complete t =>
      refine h.extend hgrows.toExtends fun t' ms hs => .inl ?_
      exact ((leads_complete t tt).shape_eq t').symm.trans hs

/-- An embedded interface is made of functions. -/
theorem Methodical.embedded (h : tt.Methodical) {ms : List Method} {m : Method}
    (hms : tt.embeddedMethods t = .ok ms) (hm : m ∈ ms) : (tt.shape m.typ).kind = .func := by
  rw [embeddedMethods, underlyingShape?] at hms
  cases hu : tt.underlying? t with
  | none =>
      rw [hu] at hms
      cases hms
  | some u =>
      rw [hu, Option.map_some] at hms
      cases hs : tt.shape u with
      | interface ms' =>
          rw [hs] at hms
          cases hms
          exact h u ms m hs hm
      | _ =>
          rw [hs] at hms
          cases hms

/-- Merging goes wrong over a method that is there twice, if at all. -/
theorem isLocal_of_appendMethods {acc xs : List Method} {fault : TypeFault}
    (h : xs.foldlM appendMethod acc = .error fault) : fault.isLocal = true := by
  induction xs generalizing acc with
  | nil => cases h
  | cons x xs ih =>
      rw [List.foldlM_cons] at h
      cases happend : appendMethod acc x with
      | ok acc' =>
          rw [happend] at h
          exact ih h
      | error fault' =>
          rw [happend] at h
          cases h
          unfold appendMethod at happend
          split at happend
          · split at happend
            · cases happend
            · split at happend
              · cases happend
              · cases happend
                rfl
          · cases happend

theorem isLocal_of_embedded {embedded : List TypeId} {fault : TypeFault}
    (h : embedded.mapM tt.embeddedMethods = .error fault) : fault.isLocal = true := by
  induction embedded with
  | nil => cases h
  | cons t embedded ih =>
      rw [List.mapM_cons] at h
      cases hms : tt.embeddedMethods t with
      | error fault' =>
          rw [hms] at h
          cases h
          unfold embeddedMethods at hms
          split at hms
          · cases hms
            rfl
          · cases hms
          · cases hms
            rfl
      | ok ms =>
          rw [hms] at h
          cases hrest : embedded.mapM tt.embeddedMethods with
          | error fault' =>
              rw [hrest] at h
              cases h
              exact ih hrest
          | ok rest =>
              rw [hrest] at h
              cases h

/-- An interface of functions is refused for what its source says, or for too many methods. -/
theorem mergeMethods_refused {embedded : List TypeId} {direct : List Method} {fault : TypeFault}
    (hmethodical : tt.Methodical) (hdirect : ∀ m ∈ direct, (tt.shape m.typ).kind = .func)
    (h : tt.mergeMethods embedded direct = .error fault) : fault.isLocal = true ∨ ∃ n, fault = .tooManyMethods n := by
  rw [mergeMethods] at h
  cases hinherited : embedded.mapM tt.embeddedMethods with
  | error fault' =>
      rw [hinherited] at h
      cases h
      exact .inl (isLocal_of_embedded hinherited)
  | ok inherited =>
      rw [hinherited] at h
      have hfunc : (direct ++ inherited.flatten).find? (fun m => (tt.shape m.typ).kind ≠ .func) = none := by
        rw [List.find?_eq_none]
        intro m hm
        rcases List.mem_append.1 hm with hm | hm
        · simpa using hdirect m hm
        · obtain ⟨t, -, ms, hms, hmem⟩ := mem_inherited hinherited hm
          simpa using hmethodical.embedded hms hmem
      dsimp only [bind, Except.bind] at h
      rw [hfunc] at h
      dsimp only at h
      cases hmerged : ((direct ++ inherited.flatten).mergeSort Method.le).foldlM appendMethod [] with
      | error fault' =>
          rw [hmerged] at h
          cases h
          exact .inl (isLocal_of_appendMethods hmerged)
      | ok merged =>
          rw [hmerged] at h
          change (if maxMethods < merged.length then .error (.tooManyMethods merged.length)
            else .ok merged.reverse) = (.error fault : Except TypeFault (List Method)) at h
          split at h
          · cases h
            exact .inr ⟨_, rfl⟩
          · cases h

/-- A function is refused as a method only where there is one of that name. -/
theorem addMethod_refused {pkgPath name : String} {bound : Option TypeId} {ms : List Method} {m : Method}
    {fault : TypeFault} (hs : tt.shape t = .named pkgPath name bound ms) (hm : (tt.shape m.typ).kind = .func)
    (h : (addMethod t m tt).1 = .error fault) : fault.isLocal = true := by
  rw [addMethod, run_granted (get_granted tt), hs] at h
  dsimp only at h
  rw [if_neg (by simpa using hm)] at h
  cases hfind : ms.find? (·.sameName m) with
  | none =>
      rw [hfind] at h
      cases h
  | some old =>
      rw [hfind] at h
      dsimp only at h
      split at h
      · cases h
        rfl
      · cases h

/-! ### Invalid types -/

/-- What is invalid stays so. -/
theorem Grows.isInvalid (h : Grows tt tt') (hsound : tt.Sound) (ht : tt.Knows t) (hinvalid : tt.isInvalid t = true) :
    tt'.isInvalid t = true := by
  rw [TypeTable.isInvalid, Bool.and_eq_true, decide_eq_true_eq, hsound.kind_eq_kindOf] at hinvalid
  obtain ⟨hbound, hkind⟩ := hinvalid
  rw [TypeTable.isInvalid, Bool.and_eq_true, decide_eq_true_eq, h.sound.kind_eq_kindOf]
  cases hdeclared : (tt.shape t).isDeclared with
  | false =>
      have hs := h.shape_eq ht hdeclared
      refine ⟨?_, ?_⟩
      · rw [underlying?, hs]
        exact hbound
      · rw [hs, kindOf_of_built hdeclared]
        rwa [kindOf_of_built hdeclared] at hkind
  | true =>
      cases hs : tt.shape t with
      | named pkgPath name bound ms =>
          rw [underlying?, hs] at hbound
          obtain ⟨u, rfl⟩ := Option.isSome_iff_exists.1 hbound
          obtain ⟨ms', hs'⟩ := h.bound_eq hs
          rw [hs] at hkind
          refine ⟨?_, ?_⟩
          · rw [underlying?, hs']
            rfl
          · rw [hs']
            show (tt'.shape u).kind = .invalid
            rw [h.shape_eq (hsound.meant hs) (hsound.bound hs)]
            exact hkind
      | _ =>
          rw [hs] at hdeclared
          cases hdeclared

/-! ### Tables that resolution can work on -/

/-- A sound table in which the methods of interfaces are functions and the invalid type has its place. -/
structure Regular (tt : TypeTable) : Prop extends tt.Sound where
  methodical : tt.Methodical
  knows_invalid : tt.Knows invalid
  shape_invalid : tt.shape invalid = .basic .invalid

theorem Regular.reaches (h : tt.Regular) (hreaches : Reaches tt tt') : tt'.Regular := by
  induction hreaches with
  | refl => exact h
  | step _ op hknown ih =>
      have hgrows := ih.toSound.run op hknown
      refine ⟨hgrows.sound, ih.methodical.run ih.toSound op hknown, hgrows.knows ih.knows_invalid, ?_⟩
      rw [hgrows.shape_eq ih.knows_invalid (by rw [ih.shape_invalid]; rfl), ih.shape_invalid]

theorem regular_of_reachable (h : Reachable tt) : tt.Regular := by
  obtain ⟨target, hreaches⟩ := h
  refine Regular.reaches ⟨sound_new target, ?_, Nat.zero_lt_succ _, (info_new target invalid).1⟩ hreaches
  intro t ms m hs _
  rw [(info_new target t).1] at hs
  cases hs

theorem Regular.isInvalid_invalid (h : tt.Regular) : tt.isInvalid invalid = true := by
  rw [isInvalid, h.kind_eq_kindOf, underlying?, h.shape_invalid]
  rfl

end TypeTable

end GoSource
