import GoSource.Typing.Construct
import Mathlib.Data.List.Chain
import Mathlib.Data.List.Nodup

/-!
# Method lists in order

The methods of an interface are sorted, and each stands there once.

* **`IsMerged`**: a list of methods as interfaces have it.
* **`IsMerged.ext`**: such a list is known by its members.
* **`mergeMethods_spec`**, **`mem_mergeMethods`**: what merging answers with is such a list, of the methods that
  were given.
* **`mergeMethods_self`**: merging such a list changes nothing.
-/

namespace GoSource

namespace Method

theorem le_iff {m n : Method} :
    m.le n = true ↔ m.pkgPath < n.pkgPath ∨ m.pkgPath = n.pkgPath ∧ m.name ≤ n.name := by
  simp only [le, Bool.or_eq_true, Bool.and_eq_true, decide_eq_true_eq, beq_iff_eq, Bool.not_eq_true',
    decide_eq_false_iff_not, String.not_lt]

theorem le_trans (l m n : Method) (h : l.le m = true) (h' : m.le n = true) : l.le n = true := by
  rw [le_iff] at h h' ⊢
  obtain hpath | ⟨hpath, hname⟩ := h
  · obtain hpath' | ⟨hpath', -⟩ := h'
    · exact .inl (String.lt_trans hpath hpath')
    · exact .inl (hpath' ▸ hpath)
  · obtain hpath' | ⟨hpath', hname'⟩ := h'
    · exact .inl (hpath ▸ hpath')
    · exact .inr ⟨hpath.trans hpath', String.le_trans hname hname'⟩

theorem le_total (m n : Method) : (m.le n || n.le m) = true := by
  rw [Bool.or_eq_true, le_iff, le_iff]
  by_cases hlt : m.pkgPath < n.pkgPath
  · exact .inl (.inl hlt)
  · by_cases hgt : n.pkgPath < m.pkgPath
    · exact .inr (.inl hgt)
    · have hpath : m.pkgPath = n.pkgPath := String.le_antisymm hgt hlt
      obtain hname | hname := String.le_total m.name n.name
      · exact .inl (.inr ⟨hpath, hname⟩)
      · exact .inr (.inr ⟨hpath.symm, hname⟩)

/-- Methods that can stand on either side of each other have one name. -/
theorem sameName_of_le {m n : Method} (h : m.le n = true) (h' : n.le m = true) : m.sameName n = true := by
  rw [le_iff] at h h'
  obtain hpath | ⟨hpath, hname⟩ := h
  · obtain hpath' | ⟨hpath', -⟩ := h'
    · exact absurd (String.lt_trans hpath hpath') (String.lt_irrefl _)
    · rw [hpath'] at hpath
      exact absurd hpath (String.lt_irrefl _)
  · obtain hpath' | ⟨-, hname'⟩ := h'
    · rw [hpath] at hpath'
      exact absurd hpath' (String.lt_irrefl _)
    · rw [sameName, hpath, String.le_antisymm hname hname', beq_self_eq_true, beq_self_eq_true]
      rfl

/-- The method `m` stands before `n` in every list in order. -/
def Precedes (m n : Method) : Prop :=
  m.le n = true ∧ n.le m = false

theorem precedes_of_le {m n : Method} (h : m.le n = true) (hname : m.sameName n = false) : m.Precedes n := by
  refine ⟨h, ?_⟩
  by_contra hle
  rw [sameName_of_le h (by simpa using hle)] at hname
  cases hname

instance : Trans Precedes Precedes Precedes where
  trans {l m n} h h' := by
    refine ⟨le_trans l m n h.1 h'.1, ?_⟩
    by_contra hle
    have hback := le_trans m n l h'.1 (by simpa using hle)
    rw [h.2] at hback
    cases hback

end Method

namespace TypeTable

/-- A method list as interfaces have it: in order, no two neighbours of one name, and not too long. -/
structure IsMerged (ms : List Method) : Prop where
  sorted : ms.Pairwise fun m n => m.le n = true
  distinct : ms.IsChain fun m n => m.sameName n = false
  length_le : ms.length ≤ maxMethods

/-- Methods in order, no two neighbours of one name: each stands strictly before the next ones. -/
theorem pairwise_precedes {ms : List Method} (hsorted : ms.Pairwise fun m n => m.le n = true)
    (hdistinct : ms.IsChain fun m n => m.sameName n = false) : ms.Pairwise Method.Precedes := by
  rw [← List.isChain_iff_pairwise, List.isChain_iff_getElem]
  intro i hi
  exact Method.precedes_of_le (List.pairwise_iff_getElem.1 hsorted i (i + 1) _ hi (Nat.lt_succ_self i))
    (List.isChain_iff_getElem.1 hdistinct i hi)

theorem nodup_of_precedes {ms : List Method} (h : ms.Pairwise Method.Precedes) : ms.Nodup := by
  refine h.imp ?_
  rintro m n ⟨hle, hlt⟩ rfl
  rw [hle] at hlt
  cases hlt

theorem IsMerged.strict {ms : List Method} (h : IsMerged ms) : ms.Pairwise Method.Precedes :=
  pairwise_precedes h.sorted h.distinct

theorem IsMerged.nodup {ms : List Method} (h : IsMerged ms) : ms.Nodup :=
  nodup_of_precedes h.strict

/-- Such a list is known by its members. -/
theorem IsMerged.ext {ms ms' : List Method} (h : IsMerged ms) (h' : IsMerged ms') (hmem : ∀ m, m ∈ ms ↔ m ∈ ms') :
    ms = ms' := by
  refine List.Perm.eq_of_pairwise ?_ h.strict h'.strict ((List.perm_ext_iff_of_nodup h.nodup h'.nodup).2 hmem)
  intro m n _ _ hmn hnm
  rw [Method.Precedes, hnm.1] at hmn
  cases hmn.2

theorem bind_eq_ok {α β : Type} {x : Except TypeFault α} {f : α → Except TypeFault β} {y : β} :
    x >>= f = .ok y ↔ ∃ a, x = .ok a ∧ f a = .ok y := by
  cases x with
  | error fault =>
      constructor
      · intro h
        cases h
      · rintro ⟨a, ha, -⟩
        cases ha
  | ok a =>
      constructor
      · intro h
        exact ⟨a, rfl, h⟩
      · rintro ⟨b, hb, h⟩
        cases hb
        exact h

/-- Appending a method. -/
theorem appendMethod_cases {acc ys : List Method} {x : Method} (h : appendMethod acc x = .ok ys) :
    ys = acc ∨ ys = x :: acc ∧ ∀ m ∈ acc.head?, m.sameName x = false := by
  cases acc with
  | nil =>
      cases h
      exact .inr ⟨rfl, by simp⟩
  | cons last acc =>
      rw [appendMethod] at h
      split at h
      · next hname =>
          cases h
          refine .inr ⟨rfl, ?_⟩
          intro m hm
          cases hm
          simpa using hname
      · split at h
        · cases h
          exact .inl rfl
        · cases h

/-- A method that is not appended is the last one. -/
theorem mem_appendMethod {acc ys : List Method} {x : Method} (h : appendMethod acc x = .ok ys) : x ∈ ys := by
  cases acc with
  | nil =>
      cases h
      exact List.mem_singleton_self x
  | cons last acc =>
      rw [appendMethod] at h
      split at h
      · cases h
        exact List.mem_cons_self
      · next hname =>
          split at h
          · next htyp =>
              cases h
              simp only [Method.sameName, Bool.not_eq_true', Bool.not_eq_false, Bool.and_eq_true,
                beq_iff_eq] at hname
              obtain rfl : x = last := by
                cases x
                cases last
                simp_all
              exact List.mem_cons_self
          · cases h

/-- Methods that are appended one by one stand in the order in which they came, and no neighbours of one name
are among them. -/
theorem appendMethods {acc xs ys : List Method} (h : xs.foldlM appendMethod acc = .ok ys)
    (hacc : acc.IsChain fun m n => n.sameName m = false) :
    (ys.IsChain fun m n => n.sameName m = false) ∧ ∃ zs : List Method, zs.Sublist xs ∧ ys = zs.reverse ++ acc := by
  induction xs generalizing acc with
  | nil =>
      cases h
      exact ⟨hacc, [], .slnil, rfl⟩
  | cons x xs ih =>
      rw [List.foldlM_cons] at h
      cases happend : appendMethod acc x with
      | error fault =>
          rw [happend] at h
          cases h
      | ok acc' =>
          rw [happend] at h
          obtain rfl | ⟨rfl, hname⟩ := appendMethod_cases happend
          · obtain ⟨hchain, zs, hsub, rfl⟩ := ih h hacc
            exact ⟨hchain, zs, hsub.cons x, rfl⟩
          · obtain ⟨hchain, zs, hsub, rfl⟩ := ih h (List.isChain_cons.2 ⟨hname, hacc⟩)
            refine ⟨hchain, x :: zs, hsub.cons_cons x, ?_⟩
            rw [List.reverse_cons, List.append_assoc, List.singleton_append]

/-- No method is lost: one that is not appended is there already. -/
theorem mem_appendMethods {acc xs ys : List Method} {m : Method} (h : xs.foldlM appendMethod acc = .ok ys)
    (hm : m ∈ acc ∨ m ∈ xs) : m ∈ ys := by
  induction xs generalizing acc with
  | nil =>
      cases h
      simpa using hm
  | cons x xs ih =>
      rw [List.foldlM_cons] at h
      obtain ⟨acc', happend, h⟩ := bind_eq_ok.1 h
      refine ih h ?_
      rw [List.mem_cons, ← or_assoc] at hm
      refine hm.imp_left fun hm => ?_
      obtain hacc | rfl := hm
      · obtain rfl | ⟨rfl, -⟩ := appendMethod_cases happend
        · exact hacc
        · exact List.mem_cons_of_mem _ hacc
      · exact mem_appendMethod happend

/-- Methods without neighbours of one name are all appended. -/
theorem appendMethods_self {acc xs : List Method}
    (h : (xs.reverse ++ acc).IsChain fun m n => n.sameName m = false) :
    xs.foldlM appendMethod acc = .ok (xs.reverse ++ acc) := by
  induction xs generalizing acc with
  | nil => rfl
  | cons x xs ih =>
      rw [List.reverse_cons, List.append_assoc, List.singleton_append] at h ⊢
      have hhead : appendMethod acc x = .ok (x :: acc) := by
        have hchain := (List.isChain_append.1 h).2.1
        cases acc with
        | nil => rfl
        | cons last acc =>
            have hname := (List.isChain_cons_cons.1 hchain).1
            rw [appendMethod, hname]
            rfl
      rw [List.foldlM_cons, hhead]
      exact ih h

/-- When merging answers, and with what. -/
theorem mergeMethods_eq_ok {tt : TypeTable} {embedded : List TypeId} {direct ms : List Method} :
    tt.mergeMethods embedded direct = .ok ms ↔ ∃ inherited merged,
      embedded.mapM tt.embeddedMethods = .ok inherited ∧
      (∀ m ∈ direct ++ inherited.flatten, (tt.shape m.typ).kind = .func) ∧
      ((direct ++ inherited.flatten).mergeSort Method.le).foldlM appendMethod [] = .ok merged ∧
      merged.length ≤ maxMethods ∧ ms = merged.reverse := by
  rw [mergeMethods, bind_eq_ok]
  refine exists_congr fun inherited => ?_
  dsimp only
  cases hfind : (direct ++ inherited.flatten).find? fun m => decide ((tt.shape m.typ).kind ≠ .func) with
  | some m =>
      have hm := List.find?_some hfind
      have hmem := List.mem_of_find?_eq_some hfind
      constructor
      · rintro ⟨-, h⟩
        cases h
      · rintro ⟨merged, -, htypes, -⟩
        exact absurd (htypes m hmem) (of_decide_eq_true hm)
  | none =>
      have htypes : ∀ m ∈ direct ++ inherited.flatten, (tt.shape m.typ).kind = .func := by
        intro m hm
        simpa using List.find?_eq_none.1 hfind m hm
      constructor
      · rintro ⟨hinherited, h⟩
        obtain ⟨merged, hmerged, hlength⟩ := bind_eq_ok.1 h
        split at hlength
        · cases hlength
        · next hle =>
            cases hlength
            exact ⟨merged, hinherited, htypes, hmerged, Nat.not_lt.1 hle, rfl⟩
      · rintro ⟨merged, hinherited, -, hmerged, hle, rfl⟩
        refine ⟨hinherited, bind_eq_ok.2 ⟨merged, hmerged, ?_⟩⟩
        rw [if_neg (Nat.not_lt.2 hle)]

/-- Every inherited method is a method of an embedded interface. -/
theorem mem_inherited {tt : TypeTable} {embedded : List TypeId} {inherited : List (List Method)} {m : Method}
    (h : embedded.mapM tt.embeddedMethods = .ok inherited) (hm : m ∈ inherited.flatten) :
    ∃ t ∈ embedded, ∃ ms, tt.embeddedMethods t = .ok ms ∧ m ∈ ms := by
  induction embedded generalizing inherited with
  | nil =>
      cases h
      cases hm
  | cons t embedded ih =>
      rw [List.mapM_cons, bind_eq_ok] at h
      obtain ⟨ms, hms, h⟩ := h
      obtain ⟨others, hothers, h⟩ := bind_eq_ok.1 h
      cases h
      rw [List.flatten_cons, List.mem_append] at hm
      obtain hm | hm := hm
      · exact ⟨t, List.mem_cons_self, ms, hms, hm⟩
      · obtain ⟨u, hu, hrest⟩ := ih hothers hm
        exact ⟨u, List.mem_cons_of_mem _ hu, hrest⟩

/-- What merging answers with: methods in order, each of which was given, directly or by embedding, and has a
function for its type. -/
theorem mergeMethods_spec {tt : TypeTable} {embedded : List TypeId} {direct ms : List Method}
    (h : tt.mergeMethods embedded direct = .ok ms) :
    IsMerged ms ∧ ∀ m ∈ ms, (tt.shape m.typ).kind = .func ∧
      (m ∈ direct ∨ ∃ t ∈ embedded, ∃ ms, tt.embeddedMethods t = .ok ms ∧ m ∈ ms) := by
  obtain ⟨inherited, merged, hinherited, htypes, hmerged, hlength, rfl⟩ := mergeMethods_eq_ok.1 h
  obtain ⟨hchain, zs, hsub, hzs⟩ := appendMethods hmerged .nil
  rw [List.append_nil] at hzs
  subst hzs
  rw [List.reverse_reverse]
  refine ⟨⟨?_, ?_, ?_⟩, ?_⟩
  · exact (List.pairwise_mergeSort Method.le_trans Method.le_total _).sublist hsub
  · exact List.isChain_reverse.1 hchain
  · rw [List.length_reverse] at hlength
    exact hlength
  · intro m hm
    have hall := List.mem_mergeSort.1 (hsub.subset hm)
    refine ⟨htypes m hall, ?_⟩
    rcases List.mem_append.1 hall with hdirect | hflat
    · exact .inl hdirect
    · exact .inr (mem_inherited hinherited hflat)

/-- The methods that an embedded type brings in are its methods. -/
theorem methods_of_embedded {tt : TypeTable} {t : TypeId} {ms : List Method} (h : tt.embeddedMethods t = .ok ms) :
    tt.methods t = ms := by
  rw [embeddedMethods, underlyingShape?, underlying?] at h
  rw [methods]
  cases hs : tt.shape t with
  | named pkgPath name bound ms' =>
      simp only [hs] at h ⊢
      cases hu : bound.map tt.shape with
      | none =>
          rw [hu] at h
          cases h
      | some s =>
          rw [hu] at h
          cases s with
          | interface =>
              cases h
              rfl
          | _ => cases h
  | interface ms' =>
      simp only [hs, Option.map_some] at h
      cases h
      rfl
  | _ =>
      simp only [hs, Option.map_some] at h
      cases h

/-- Every method of an embedded type is inherited. -/
theorem mem_inherited_of_mem {tt : TypeTable} {embedded : List TypeId} {inherited : List (List Method)} {m : Method}
    {t : TypeId} (h : embedded.mapM tt.embeddedMethods = .ok inherited) (ht : t ∈ embedded)
    (hm : m ∈ tt.methods t) : m ∈ inherited.flatten := by
  induction embedded generalizing inherited with
  | nil => cases ht
  | cons u embedded ih =>
      rw [List.mapM_cons, bind_eq_ok] at h
      obtain ⟨ms, hms, h⟩ := h
      obtain ⟨others, hothers, h⟩ := bind_eq_ok.1 h
      cases h
      rw [List.flatten_cons, List.mem_append]
      obtain rfl | ht := List.mem_cons.1 ht
      · exact .inl (methods_of_embedded hms ▸ hm)
      · exact .inr (ih hothers ht)

/-- The methods of an interface are those that were given, directly or by embedding. -/
theorem mem_mergeMethods {tt : TypeTable} {embedded : List TypeId} {direct ms : List Method} {m : Method}
    (h : tt.mergeMethods embedded direct = .ok ms) :
    m ∈ ms ↔ m ∈ direct ∨ ∃ t ∈ embedded, m ∈ tt.methods t := by
  constructor
  · intro hm
    obtain ⟨-, hdirect | ⟨t, ht, ms', hms', hm'⟩⟩ := (mergeMethods_spec h).2 m hm
    · exact .inl hdirect
    · exact .inr ⟨t, ht, methods_of_embedded hms' ▸ hm'⟩
  · intro hm
    obtain ⟨inherited, merged, hinherited, -, hmerged, -, rfl⟩ := mergeMethods_eq_ok.1 h
    rw [List.mem_reverse]
    refine mem_appendMethods hmerged (.inr (List.mem_mergeSort.2 (List.mem_append.2 ?_)))
    exact hm.imp_right fun ⟨t, ht, hm⟩ => mem_inherited_of_mem hinherited ht hm

/-- Merging methods in order changes nothing. -/
theorem mergeMethods_self {tt : TypeTable} {ms : List Method} (h : IsMerged ms)
    (htypes : ∀ m ∈ ms, (tt.shape m.typ).kind = .func) : tt.mergeMethods [] ms = .ok ms := by
  refine mergeMethods_eq_ok.2 ⟨[], ms.reverse, rfl, ?_, ?_, ?_, ms.reverse_reverse.symm⟩
  · rw [List.flatten_nil, List.append_nil]
    exact htypes
  · rw [List.flatten_nil, List.append_nil, List.mergeSort_of_pairwise h.sorted, appendMethods_self, List.append_nil]
    rw [List.append_nil, List.isChain_reverse]
    exact h.distinct
  · rw [List.length_reverse]
    exact h.length_le

end TypeTable

end GoSource
