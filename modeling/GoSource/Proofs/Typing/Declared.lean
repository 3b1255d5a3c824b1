import GoSource.Proofs.Typing.Persistence

/-!
# Methods of declared types

A declared type has at most one method of a name, and a method that was accepted is among its methods, whether it was
added or had been there.

* **`Distinct`**: methods of different names.
* **`distinct_declared`**: whatever is done to a table, the methods declared on a type are distinct.
* **`mem_declared_of_addMethod`**: what accepting a method says about the table.
-/

namespace GoSource

/-- No two of the methods have the same name in the same package. -/
def Distinct (ms : List Method) : Prop :=
  ms.Pairwise fun m n => m.sameName n = false

theorem Method.sameName_comm (m n : Method) : m.sameName n = n.sameName m := by
  rw [sameName, sameName, Bool.beq_comm, BEq.comm (a := m.pkgPath)]

namespace Distinct

variable {ms ms' : List Method} {m n : Method}

theorem perm (h : Distinct ms) (hperm : ms.Perm ms') : Distinct ms' :=
  hperm.pairwise h fun hname => (Method.sameName_comm _ _).trans hname

/-- A method of a new name is added. -/
theorem add (h : Distinct ms) (hnew : ms.find? (·.sameName m) = none) : Distinct ((ms ++ [m]).mergeSort Method.le) := by
  have hnew := List.find?_eq_none.1 hnew
  refine perm (List.pairwise_append.2 ⟨h, List.pairwise_singleton _ m, fun n hn m' hm' => ?_⟩)
    (List.mergeSort_perm _ _).symm
  rw [List.mem_singleton.1 hm']
  simpa using hnew n hn

/-- Methods of one name are one method. -/
theorem eq_of_sameName (h : Distinct ms) (hm : m ∈ ms) (hn : n ∈ ms) (hname : m.sameName n = true) : m = n := by
  by_contra hne
  have : Std.Symm fun m n : Method => m.sameName n = false := ⟨fun m n h => (Method.sameName_comm n m).trans h⟩
  have hother := h.forall hm hn hne
  rw [hname] at hother
  cases hother

end Distinct

namespace TypeTable

variable {tt tt' : TypeTable} {t : TypeId} {m : Method}

theorem declared_of_built (hs : (tt.shape t).isDeclared = false) : tt.declared t = [] := by
  rw [declared]
  cases hshape : tt.shape t with
  | named =>
      rw [hshape] at hs
      cases hs
  | _ => rfl

theorem distinct_update {f : TypeInfo → TypeInfo} {u : TypeId} {pkgPath name : String} {bound : Option TypeId}
    {ms : List Method} (hs : (f (tt.info u)).shape = .named pkgPath name bound ms) (hms : Distinct ms)
    (ht : Distinct (tt.declared t)) : Distinct ((tt.update u f).declared t) := by
  rw [declared, shape_update]
  split_ifs with htu
  · rw [hs]
    exact hms
  · exact ht

/-- How a method is declared: it is refused, it had been declared before, or no other one of its name had. -/
theorem addMethod_ends (t : TypeId) (m : Method) (tt : TypeTable) :
    (∃ fault, addMethod t m tt = (.error fault, tt)) ∨ (addMethod t m tt = (.ok (), tt) ∧ m ∈ tt.declared t) ∨
      ∃ pkgPath name bound ms, tt.shape t = .named pkgPath name bound ms ∧ ms.find? (·.sameName m) = none ∧
        addMethod t m tt = (.ok (), tt.update t
          ({ · with shape := .named pkgPath name bound ((ms ++ [m]).mergeSort Method.le) })) := by
  rw [addMethod, run_granted (get_granted tt), declared]
  cases hs : tt.shape t with
  | named pkgPath name bound ms =>
      dsimp only
      by_cases hkind : (tt.shape m.typ).kind ≠ .func
      · rw [if_pos hkind]
        exact .inl ⟨_, rfl⟩
      · rw [if_neg hkind]
        cases hfind : ms.find? (·.sameName m) with
        | none => exact .inr (.inr ⟨pkgPath, name, bound, ms, rfl, hfind, rfl⟩)
        | some old =>
            dsimp only
            by_cases htyp : old.typ ≠ m.typ
            · rw [if_pos htyp]
              exact .inl ⟨_, rfl⟩
            · rw [if_neg htyp]
              have hname : old.sameName m = true := List.find?_some (p := fun n : Method => n.sameName m) hfind
              have heq : old = m := Method.eq_iff.1 (by simpa [hname] using htyp)
              exact .inr (.inl ⟨rfl, heq ▸ List.mem_of_find?_eq_some hfind⟩)
  | _ => exact .inl ⟨_, rfl⟩

/-- A method that was accepted is declared. -/
theorem mem_declared_of_addMethod (h : (addMethod t m tt).1 = .ok ()) : m ∈ (addMethod t m tt).2.declared t := by
  obtain ⟨fault, hrun⟩ | ⟨hrun, hmem⟩ | ⟨pkgPath, name, bound, ms, hs, -, hrun⟩ := addMethod_ends t m tt
  · rw [hrun] at h
    cases h
  · rwa [hrun]
  · have ht : tt.Knows t := knows_of_shape_ne (by simp [hs])
    rw [hrun, declared, shape_update, if_pos ⟨rfl, ht⟩]
    exact List.mem_mergeSort.2 (List.mem_append_right ms (List.mem_singleton_self m))

/-- What an operation does to the methods that are declared on a type: nothing, or it adds one of a new name. -/
theorem Step.distinct_declared (hstep : tt.Step tt') (h : ∀ t, Distinct (tt.declared t)) (t : TypeId) :
    Distinct (tt'.declared t) := by
  have hkept {tt' : TypeTable} (hs : tt'.shape t = tt.shape t) : Distinct (tt'.declared t) := by
    rw [declared, hs]
    exact h t
  have hnone {tt' : TypeTable} (hs : tt'.declared t = []) : Distinct (tt'.declared t) := hs ▸ List.Pairwise.nil
  have hdeclared {u : TypeId} {pkgPath name : String} {bound : Option TypeId} {ms : List Method}
      (hs : tt.shape u = .named pkgPath name bound ms) : Distinct ms := by
    have hu := h u
    rwa [declared, hs] at hu
  cases hstep with
  | refused => exact h t
  | @intern s hbuilt =>
      obtain hs | hs := shape_intern_cases s tt t
      · exact hkept hs
      · exact hnone (declared_of_built (by rw [hs]; exact hbuilt))
  | named pkgPath name =>
      obtain ⟨-, hs⟩ | hs := shape_pushed_cases tt (.named pkgPath name none []) {} t
      · exact hnone (by
          show (tt.pushed (.named pkgPath name none []) {}).declared t = []
          rw [declared, hs])
      · exact hkept hs
  | @bind v meaning =>
      obtain ⟨fault, hrun⟩ | ⟨pkgPath, name, ms, w, hs, -, hrun⟩ := setUnderlying_cases v meaning tt
      · exact hkept (by rw [hrun])
      · rw [hrun]
        exact distinct_update rfl (hdeclared hs) (h t)
  | method v m =>
      obtain ⟨fault, hrun⟩ | ⟨hrun, -⟩ | ⟨pkgPath, name, bound, ms, hs, hnew, hrun⟩ := addMethod_ends v m tt
      · exact hkept (by rw [hrun])
      · exact hkept (by rw [hrun])
      · rw [hrun]
        exact distinct_update rfl ((hdeclared hs).add hnew) (h t)
  | complete v => exact hkept ((leads_complete v tt).shape_eq t)

/-- Whatever was done to a table, no declared type has two methods of one name. -/
theorem distinct_declared (h : Reachable tt) (t : TypeId) : Distinct (tt.declared t) := by
  obtain ⟨target, hreaches⟩ := h
  induction hreaches generalizing t with
  | refl =>
      have hbuilt : ((new target).shape t).isDeclared = false := by
        rw [(info_new target t).1]
        rfl
      rw [declared_of_built hbuilt]
      exact List.Pairwise.nil
  | step hbefore op hknown ih =>
      exact ((hbefore.grows (sound_new target)).sound.step op hknown).distinct_declared ih t

end TypeTable

end GoSource
