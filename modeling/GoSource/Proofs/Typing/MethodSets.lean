import GoSource.Proofs.Typing.Refusals
import Mathlib.Data.Finset.Card

/-!
# Interfaces are their method sets

An interface is asked for with methods and with interfaces to embed.  All that counts is the set of the methods that
come together: whether there is such an interface, which methods it has, and which handle.

* **`offered`**: the set of the methods that come together; **`Composable`**: what they come from is in order.
* **`Clashes`**: two methods of one name are not the same.
* **`appendMethods_of_not_clashes`**, **`length_merged_le`**: how methods are appended one after another.
* **`mergeMethods_ok_iff`**, **`toFinset_mergeMethods`**: when methods can be merged, and to what.
* **`newInterface_again`**: a set that an interface was made of gives the same handle again, at any later time.
* **`interface_of_offered`**: what becomes of a request for an interface, by its method set.
-/

namespace GoSource

/-- Of methods that stand in order, one has the smaller package path, or the smaller name in the same package. -/
theorem Method.precedes_iff {m n : Method} :
    m.Precedes n ↔ m.pkgPath < n.pkgPath ∨ m.pkgPath = n.pkgPath ∧ m.name < n.name := by
  rw [Precedes, ← Bool.not_eq_true, le_iff, le_iff]
  constructor
  · rintro ⟨hpath | ⟨hpath, -⟩, hnot⟩
    · exact .inl hpath
    · exact .inr ⟨hpath, String.not_le.1 fun hname => hnot (.inr ⟨hpath.symm, hname⟩)⟩
  · rintro (hpath | ⟨hpath, hname⟩)
    · refine ⟨.inl hpath, ?_⟩
      rintro (hback | ⟨hback, -⟩)
      · exact String.lt_irrefl _ (String.lt_trans hpath hback)
      · exact String.lt_irrefl _ (hback ▸ hpath)
    · refine ⟨.inr ⟨hpath, String.not_lt.1 fun hback => String.lt_irrefl _ (String.lt_trans hname hback)⟩, ?_⟩
      rintro (hback | ⟨-, hback⟩)
      · exact String.lt_irrefl _ (hpath ▸ hback)
      · exact String.not_le.2 hname hback

namespace TypeTable

variable {tt tt' : TypeTable} {embedded embedded' : List TypeId} {direct direct' ms ms' : List Method} {t : TypeId}

/-- The methods that an interface is asked to have: those given and those of the embedded interfaces. -/
def offered (tt : TypeTable) (embedded : List TypeId) (direct : List Method) : Finset Method :=
  (direct ++ embedded.flatMap tt.methods).toFinset

/-- Interfaces to embed that have a meaning, and methods that are functions. -/
structure Composable (tt : TypeTable) (embedded : List TypeId) (direct : List Method) : Prop where
  interfaces : ∀ t ∈ embedded, ∃ ms, tt.underlyingShape? t = some (.interface ms)
  functions : ∀ m ∈ direct, (tt.shape m.typ).kind = .func

/-- Two of the methods have one name, in one package, and different types. -/
def Clashes (S : Finset Method) : Prop :=
  ∃ m ∈ S, ∃ n ∈ S, m.pkgPath = n.pkgPath ∧ m.name = n.name ∧ m.typ ≠ n.typ

instance (S : Finset Method) : Decidable (Clashes S) :=
  inferInstanceAs (Decidable (∃ m ∈ S, ∃ n ∈ S, m.pkgPath = n.pkgPath ∧ m.name = n.name ∧ m.typ ≠ n.typ))

theorem mem_offered {m : Method} :
    m ∈ tt.offered embedded direct ↔ m ∈ direct ∨ ∃ t ∈ embedded, m ∈ tt.methods t := by
  simp [offered]

/-! ### Merging methods -/

/-- In a merged list methods do not clash. -/
theorem IsMerged.not_clashes (h : IsMerged ms) : ¬Clashes ms.toFinset := by
  have hapart {m n : Method} (hmn : m.Precedes n) : ¬(m.pkgPath = n.pkgPath ∧ m.name = n.name) := by
    rintro ⟨hpath, hname⟩
    have hback : n.le m = true := Method.le_iff.2 (.inr ⟨hpath.symm, hname ▸ String.le_refl _⟩)
    rw [hmn.2] at hback
    cases hback
  rintro ⟨m, hm, n, hn, hpath, hname, htyp⟩
  -- Methods of one name cannot stand at different places of the list.
  have heq := (List.Pairwise.forall_of_forall_of_flip (l := ms)
    (R := fun m n => m.pkgPath = n.pkgPath ∧ m.name = n.name → m = n) (fun _ _ _ => rfl)
    (h.strict.imp fun hmn hsame => absurd hsame (hapart hmn))
    (h.strict.imp fun hmn hsame => absurd ⟨hsame.1.symm, hsame.2.symm⟩ (hapart hmn)))
    (List.mem_toFinset.1 hm) (List.mem_toFinset.1 hn) ⟨hpath, hname⟩
  exact htyp (congrArg Method.typ heq)

/-- A method that does not clash with the last one is appended, if it is not there already. -/
theorem appendMethod_of_not_clashes {acc xs : List Method} {x : Method} (h : ¬Clashes (acc ++ x :: xs).toFinset) :
    ∃ acc', appendMethod acc x = .ok acc' ∧ (acc' ++ xs).toFinset = (acc ++ x :: xs).toFinset := by
  obtain ⟨acc', happend⟩ : ∃ acc', appendMethod acc x = .ok acc' := by
    cases acc with
    | nil => exact ⟨[x], rfl⟩
    | cons last acc =>
        rw [appendMethod]
        cases hname : last.sameName x with
        | false => exact ⟨_, rfl⟩
        | true =>
            simp only [Method.sameName, Bool.and_eq_true, beq_iff_eq] at hname
            have htyp : last.typ = x.typ := by
              by_contra hne
              exact h ⟨last, by simp, x, by simp, hname.2, hname.1, hne⟩
            exact ⟨last :: acc, if_pos htyp⟩
  refine ⟨acc', happend, Finset.ext fun m => ?_⟩
  have hx := mem_appendMethod happend
  obtain rfl | ⟨rfl, -⟩ := appendMethod_cases happend
  · simp only [List.mem_toFinset, List.mem_append, List.mem_cons]
    constructor
    · rintro (hm | hm)
      · exact .inl hm
      · exact .inr (.inr hm)
    · rintro (hm | rfl | hm)
      · exact .inl hm
      · exact .inl hx
      · exact .inr hm
  · simp only [List.mem_toFinset, List.mem_append, List.mem_cons]
    tauto

/-- Methods that do not clash are appended one after another. -/
theorem appendMethods_of_not_clashes {acc xs : List Method} (h : ¬Clashes (acc ++ xs).toFinset) :
    ∃ ys, xs.foldlM appendMethod acc = .ok ys := by
  induction xs generalizing acc with
  | nil => exact ⟨acc, rfl⟩
  | cons x xs ih =>
      obtain ⟨acc', happend, hset⟩ := appendMethod_of_not_clashes h
      have hrest : ¬Clashes (acc' ++ xs).toFinset := hset ▸ h
      obtain ⟨ys, hys⟩ := ih hrest
      refine ⟨ys, ?_⟩
      rw [List.foldlM_cons, happend]
      exact hys

/-- What is appended is in order and has no neighbours of one name, so it has no more methods than there were. -/
theorem length_merged_le {all merged : List Method}
    (h : (all.mergeSort Method.le).foldlM appendMethod [] = .ok merged) : merged.length ≤ all.toFinset.card := by
  obtain ⟨hchain, zs, hsub, hzs⟩ := appendMethods h .nil
  rw [List.append_nil] at hzs
  subst hzs
  have hnodup : zs.Nodup := by
    refine nodup_of_precedes (pairwise_precedes ?_ (List.isChain_reverse.1 hchain))
    exact (List.pairwise_mergeSort Method.le_trans Method.le_total _).sublist hsub
  rw [List.length_reverse, ← List.toFinset_card_of_nodup hnodup]
  refine Finset.card_le_card fun m hm => ?_
  rw [List.mem_toFinset] at hm ⊢
  exact List.mem_mergeSort.1 (hsub.subset hm)

/-! ### Method sets -/

/-- What is merged is the set of the methods that come together. -/
theorem toFinset_mergeMethods (h : tt.mergeMethods embedded direct = .ok ms) :
    ms.toFinset = tt.offered embedded direct := by
  ext m
  rw [List.mem_toFinset, mem_offered]
  exact mem_mergeMethods h

theorem card_mergeMethods (h : tt.mergeMethods embedded direct = .ok ms) :
    (tt.offered embedded direct).card = ms.length := by
  rw [← toFinset_mergeMethods h]
  exact List.toFinset_card_of_nodup (mergeMethods_spec h).1.nodup

/-- The methods that come together are those that are given and those that are inherited. -/
theorem offered_eq {inherited : List (List Method)} (h : embedded.mapM tt.embeddedMethods = .ok inherited) :
    tt.offered embedded direct = (direct ++ inherited.flatten).toFinset := by
  ext m
  rw [mem_offered, List.mem_toFinset, List.mem_append]
  refine or_congr_right ⟨fun ⟨t, ht, hm⟩ => mem_inherited_of_mem h ht hm, fun hm => ?_⟩
  obtain ⟨t, ht, ms, hms, hm⟩ := mem_inherited h hm
  exact ⟨t, ht, methods_of_embedded hms ▸ hm⟩

/-- Interfaces that have a meaning can be embedded. -/
theorem Composable.inherited (h : tt.Composable embedded direct) :
    ∃ inherited, embedded.mapM tt.embeddedMethods = .ok inherited := by
  have hall := h.interfaces
  clear h
  induction embedded with
  | nil => exact ⟨[], rfl⟩
  | cons t embedded ih =>
      obtain ⟨ms, hms⟩ := hall t List.mem_cons_self
      obtain ⟨inherited, hinherited⟩ := ih fun u hu => hall u (List.mem_cons_of_mem _ hu)
      refine ⟨ms :: inherited, ?_⟩
      rw [List.mapM_cons, embeddedMethods, hms, hinherited]
      rfl

/-- Methods can be merged if they do not clash and are not too many, and only then. -/
theorem mergeMethods_ok_iff (hmethodical : tt.Methodical) (h : tt.Composable embedded direct) :
    (∃ ms, tt.mergeMethods embedded direct = .ok ms) ↔
      ¬Clashes (tt.offered embedded direct) ∧ (tt.offered embedded direct).card ≤ maxMethods := by
  constructor
  · rintro ⟨ms, hms⟩
    have hmerged := (mergeMethods_spec hms).1
    refine ⟨?_, ?_⟩
    · rw [← toFinset_mergeMethods hms]
      exact hmerged.not_clashes
    · rw [card_mergeMethods hms]
      exact hmerged.length_le
  · obtain ⟨inherited, hinherited⟩ := h.inherited
    rw [offered_eq hinherited]
    rintro ⟨hclash, hcard⟩
    have hfunc : ∀ m ∈ direct ++ inherited.flatten, (tt.shape m.typ).kind = .func := by
      intro m hm
      rcases List.mem_append.1 hm with hdirect | hflat
      · exact h.functions m hdirect
      · obtain ⟨t, -, ms, hms, hm⟩ := mem_inherited hinherited hflat
        exact hmethodical.embedded hms hm
    have hsorted : ¬Clashes ([] ++ (direct ++ inherited.flatten).mergeSort Method.le).toFinset := by
      rw [List.nil_append, List.toFinset_eq_of_perm _ _ (List.mergeSort_perm _ _)]
      exact hclash
    obtain ⟨merged, hmerged⟩ := appendMethods_of_not_clashes hsorted
    exact ⟨_, mergeMethods_eq_ok.2
      ⟨inherited, merged, hinherited, hfunc, hmerged, Nat.le_trans (length_merged_le hmerged) hcard, rfl⟩⟩

/-! ### Requests -/

/-- A request for an interface that is refused changes nothing. -/
theorem newInterface_refused {fault : TypeFault} (h : (newInterface embedded direct tt).1 = .error fault) :
    (newInterface embedded direct tt).2 = tt := by
  obtain ⟨fault', hrun⟩ | ⟨ms, -, hrun⟩ := newInterface_cases embedded direct tt
  · rw [hrun]
  · obtain ⟨t, tt', hgranted⟩ := granted_intern (s := .interface ms) (by simp) tt
    rw [hrun, hgranted] at h
    cases h

/-- A request is refused if methods clash or are too many, and only then. -/
theorem newInterface_refused_iff (hmethodical : tt.Methodical) (h : tt.Composable embedded direct) :
    (∃ fault, (newInterface embedded direct tt).1 = .error fault) ↔
      Clashes (tt.offered embedded direct) ∨ maxMethods < (tt.offered embedded direct).card := by
  rw [← not_iff_not, not_or, Nat.not_lt, ← mergeMethods_ok_iff hmethodical h]
  constructor
  · intro hgranted
    obtain ⟨fault, hrun⟩ | ⟨ms, hms, -⟩ := newInterface_cases embedded direct tt
    · exact absurd ⟨fault, by rw [hrun]⟩ hgranted
    · exact ⟨ms, hms⟩
  · rintro ⟨ms, hms⟩ ⟨fault, hfault⟩
    obtain ⟨t, tt', hgranted⟩ := granted_intern (s := .interface ms) (by simp) tt
    rw [newInterface_ok hms, hgranted] at hfault
    cases hfault

/-- A request that is granted answers with an interface that has the merged methods. -/
theorem newInterface_granted (hsound : tt.Sound) (hknown : ∀ t ∈ embedded ++ direct.map Method.typ, tt.Knows t)
    (h : (newInterface embedded direct tt).1 = .ok t) :
    ∃ ms, tt.mergeMethods embedded direct = .ok ms ∧ (newInterface embedded direct tt).2.Knows t ∧
      (newInterface embedded direct tt).2.shape t = .interface ms := by
  obtain ⟨fault, hrun⟩ | ⟨ms, hms, hrun⟩ := newInterface_cases embedded direct tt
  · rw [hrun] at h
    cases h
  · rw [hrun] at h ⊢
    exact ⟨ms, hms, (hsound.intern (s := .interface ms) rfl (hsound.knows_merged hknown hms)).2 t h⟩

/-- An interface that is there is handed out again for its method set. -/
theorem newInterface_again (h : tt.Regular) (hcomposable : tt.Composable embedded direct) (hmerged : IsMerged ms)
    (hs : tt.shape t = .interface ms) (hset : tt.offered embedded direct = ms.toFinset) :
    newInterface embedded direct tt = (.ok t, tt) := by
  have hcard : ms.toFinset.card ≤ maxMethods := by
    rw [List.toFinset_card_of_nodup hmerged.nodup]
    exact hmerged.length_le
  obtain ⟨ms', hms'⟩ := (mergeMethods_ok_iff h.methodical hcomposable).2 (hset ▸ ⟨hmerged.not_clashes, hcard⟩)
  have heq : ms' = ms := by
    refine (mergeMethods_spec hms').1.ext hmerged fun m => ?_
    rw [← List.mem_toFinset, toFinset_mergeMethods hms', hset, List.mem_toFinset]
  rw [newInterface_ok hms', heq]
  exact intern_found (h.find?_eq hs (knows_of_shape_ne (by simp [hs])) rfl)

/-- The types that a request is made with are in the table. -/
theorem Composable.known (h : tt.Composable embedded direct) :
    ∀ t ∈ embedded ++ direct.map Method.typ, tt.Knows t := by
  intro t ht
  refine knows_of_shape_ne fun hs => ?_
  rcases List.mem_append.1 ht with hin | hin
  · obtain ⟨ms, hms⟩ := h.interfaces t hin
    simp [underlyingShape?, underlying?, hs] at hms
  · obtain ⟨m, hm, rfl⟩ := List.mem_map.1 hin
    have hfunc := h.functions m hm
    rw [hs] at hfunc
    cases hfunc

/-- An interface depends on its method set only.  A request, for interfaces to embed that have a meaning and for
methods that are functions, is refused if two of the methods that come together clash, or if there are too many of
them, and only then; a request that is refused changes nothing.  Otherwise the answer is an interface that has these
methods, in order; and it is the answer to every later request for which the same methods come together, however
they are given or embedded. -/
theorem interface_of_offered (h : Reachable tt) (hcomposable : tt.Composable embedded direct) :
    let S := tt.offered embedded direct
    let answer := newInterface embedded direct tt
    ((∃ fault, answer.1 = .error fault) ↔ Clashes S ∨ maxMethods < S.card) ∧
    (∀ embedded' direct' fault, (newInterface embedded' direct' tt).1 = .error fault →
      (newInterface embedded' direct' tt).2 = tt) ∧
    ∀ t, answer.1 = .ok t →
      answer.2.shape t = .interface (answer.2.methods t) ∧
      (answer.2.methods t).toFinset = S ∧
      ((answer.2.methods t).Pairwise fun m n => m.pkgPath < n.pkgPath ∨ m.pkgPath = n.pkgPath ∧ m.name < n.name) ∧
      ∀ later, Reaches answer.2 later → ∀ embedded' direct', later.Composable embedded' direct' →
        later.offered embedded' direct' = S → newInterface embedded' direct' later = (.ok t, later) := by
  intro S answer
  have hregular := regular_of_reachable h
  refine ⟨newInterface_refused_iff hregular.methodical hcomposable, fun _ _ _ => newInterface_refused, ?_⟩
  intro t hanswer
  obtain ⟨ms, hms, -, hs⟩ := newInterface_granted hregular.toSound hcomposable.known hanswer
  have hmerged := (mergeMethods_spec hms).1
  have hmethods : answer.2.methods t = ms := by rw [methods, hs]
  rw [hmethods]
  refine ⟨hs, toFinset_mergeMethods hms, hmerged.strict.imp Method.precedes_iff.1, ?_⟩
  intro later hlater embedded' direct' hcomposable' hset
  have hanswered : answer.2.Regular :=
    hregular.reaches (.after .refl (.interface embedded direct) hcomposable.known rfl)
  have hlast := (hlater.grows hanswered.toSound).shape_of_built hs rfl (by simp)
  exact newInterface_again (hanswered.reaches hlater) hcomposable' hmerged hlast
    (hset.trans (toFinset_mergeMethods hms).symm)

/-- One method embedded and one given are the interface of the two, in any order and given twice; a method that has
the name of the embedded one and another type is refused. -/
theorem interface_of_offered_embedding :
    let a : Method := { name := "A", pkgPath := "", typ := ⟨26⟩ }
    let b : Method := { name := "B", pkgPath := "", typ := ⟨26⟩ }
    let b' : Method := { name := "B", pkgPath := "", typ := ⟨27⟩ }
    let tt := (intern (.interface [b]) (newFunc [] [basic .int] false (newFunc [] [] false (new .amd64)).2).2).2
    (∃ t tt', newInterface [⟨28⟩] [a] tt = (.ok t, tt') ∧ (tt'.methods t).toFinset = {a, b} ∧
      newInterface [] [b, a, b] tt' = (.ok t, tt')) ∧
    ∃ fault, newInterface [⟨28⟩] [b'] tt = (.error fault, tt) := by
  intro a b b' tt
  have hfuncs : Reaches (new .amd64) (newFunc [] [basic .int] false (newFunc [] [] false (new .amd64)).2).2 :=
    .step (.step .refl (.func [] [] false) (by simp [Operation.handles])) (.func [] [basic .int] false)
      (by decide +kernel)
  have hreach : Reaches (new .amd64) tt := by
    refine hfuncs.after (.interface [] [b]) (by decide +kernel) ?_
    have hmerged : IsMerged [b] := ⟨by decide +kernel, by decide +kernel, by decide⟩
    rw [Operation.run, newInterface_ok (mergeMethods_self hmerged (by decide +kernel))]
  have hmeaning : tt.underlyingShape? ⟨28⟩ = some (.interface [b]) := by decide +kernel
  have hcomposable {m : Method} (hm : (tt.shape m.typ).kind = .func) : tt.Composable [⟨28⟩] [m] :=
    ⟨by simp [hmeaning], by simpa using hm⟩
  have hset : tt.offered [⟨28⟩] [a] = {a, b} := by decide +kernel
  refine ⟨?_, ?_⟩
  · have hgiven := hcomposable (m := a) (by decide +kernel)
    obtain ⟨hiff, -, hgranted⟩ := interface_of_offered ⟨.amd64, hreach⟩ hgiven
    have hgood : ¬∃ fault, (newInterface [⟨28⟩] [a] tt).1 = .error fault := by
      rw [hiff, hset]
      decide +kernel
    cases hrun : newInterface [⟨28⟩] [a] tt with
    | mk answer tt' =>
        rw [hrun] at hgood hgranted
        cases answer with
        | error fault => exact absurd ⟨fault, rfl⟩ hgood
        | ok t =>
            obtain ⟨-, hmethods, -, hagain⟩ := hgranted t rfl
            rw [hset] at hmethods hagain
            have hgrows : Grows tt tt' := by
              have hrun' := (sound_of_reachable ⟨.amd64, hreach⟩).run (.interface [⟨28⟩] [a]) hgiven.known
              rw [Operation.run, hrun] at hrun'
              exact hrun'
            have hfunc : (tt'.shape ⟨26⟩).kind = .func := hgrows.kind_of_shape (by decide +kernel) (by decide)
            refine ⟨t, tt', rfl, hmethods, hagain tt' .refl [] [b, a, b] ⟨by simp, by simp [a, b, hfunc]⟩ ?_⟩
            show [b, a, b].toFinset = {a, b}
            decide
  · have hgiven := hcomposable (m := b') (by decide +kernel)
    obtain ⟨hiff, hsame, -⟩ := interface_of_offered ⟨.amd64, hreach⟩ hgiven
    obtain ⟨fault, hfault⟩ := hiff.2 (.inl (by decide +kernel))
    exact ⟨fault, Prod.ext hfault (hsame _ _ fault hfault)⟩

end TypeTable

end GoSource
