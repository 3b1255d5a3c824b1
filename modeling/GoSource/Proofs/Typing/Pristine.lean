import GoSource.Proofs.Typing.Mirrors

/-!
# New tables and tables with a past

What was done to a table does not keep it from mirroring a new one.

* **`mirrors_new`**: the predeclared types are in every table, under the same handles.
* **`Pristine e`**: a table in which all types are complete, but for the one declared type `e`.
* **`Pristine.mirrors`**: a table that mirrors a pristine one goes on mirroring it, and everything that is made in both
  from then on.
-/

namespace GoSource.TypeTable

variable {tt small big big' : TypeTable} {f : TypeId → TypeId} {e t : TypeId} {start : Nat}

theorem shape_new (target : Target) (t : TypeId) : (new target).shape t = .basic (kindAt t) :=
  (info_new target t).1

/-- Only the invalid type of a new table is of the invalid kind. -/
theorem eq_invalid_of_kindAt {target : Target} (ht : (new target).Knows t) (hkind : kindAt t = .invalid) :
    t = invalid := by
  obtain ⟨hblank, hknows⟩ := blank_new target
  have hbuilt : ((new target).shape t).isDeclared = false := by
    rw [shape_new]
    rfl
  exact (faithful_new target).unique ht hknows hbuilt (by rw [shape_new, hkind, hblank.1])

/-- The predeclared types are in every table, and are known there as well as in a new one. -/
theorem tracks_new {target : Target} (h : Reaches (new target) tt) : Tracks id (new target) tt := by
  obtain ⟨hblank, hknows⟩ := blank_new target
  have hadvances := h.advances (faithful_new target)
  have hrest : tt.AtRest := hadvances.atRest (atRest_new target)
  exact {
    faithful := faithful_new target
    faithful' := hadvances.faithful
    target_eq := hadvances.target_eq
    knows := hadvances.toExtends.knows
    injective := fun _ _ heq => heq
    handles := fun _ hu => by
      rw [shape_new] at hu
      cases hu
    echoes := fun {t} ht => by
      apply Echoes.same
      rw [id, hadvances.toExtends.shape_eq ht (by rw [shape_new]; rfl), shape_new, Shape.renamed]
    marks := fun {t} _ => (hrest t).trans (atRest_new target t).symm
    paced := fun {t} ht => by
      apply Or.inl
      rw [Even, id]
      by_cases hkind : kindAt t = .invalid
      · rw [eq_invalid_of_kindAt ht hkind, (hblank.reaches hknows (sound_new target) h).2, hblank.2]
      · apply hadvances.frozen
        rw [(info_new target t).2, Kind.layout, if_neg hkind]
        rfl }

theorem mirrors_new {target : Target} (h : Reaches (new target) tt) :
    Mirrors tt.types.size (fun _ => False) id (new target) tt := by
  obtain ⟨hblank, hknows⟩ := blank_new target
  have hadvances := h.advances (faithful_new target)
  have hsame {t : TypeId} (ht : (new target).Knows t) : tt.shape t = .basic (kindAt t) := by
    rw [hadvances.toExtends.shape_eq ht (by rw [shape_new]; rfl), shape_new]
  exact {
    toTracks := tracks_new h
    atRest := atRest_new target
    atRest' := hadvances.atRest (atRest_new target)
    blank := ⟨hknows, hblank.1⟩
    blank' := ⟨hadvances.toExtends.knows hknows, by rw [hsame hknows, ← shape_new target, hblank.1]⟩
    variadic := fun _ hs => by
      rw [shape_new] at hs
      cases hs
    started := Nat.le_refl _
    covered := fun ha hstart => absurd (Nat.lt_of_lt_of_le ha hstart) (Nat.lt_irrefl _)
    founded := fun {t} ht hne _ => by
      have hkind : kindAt t ≠ .invalid := fun hkind => hne (eq_invalid_of_kindAt ht hkind)
      refine .built ?_ ?_ ?_
      · rw [id, hsame ht]
        rfl
      · rw [id, hsame ht]
        exact fun heq => hkind (Shape.basic.inj heq)
      · rw [id, hsame ht]
        exact fun part hpart => absurd hpart List.not_mem_nil
    firm := (firm_new target).reaches (faithful_new target) (atRest_new target) h }

/-- A table in which all types are complete, but for the one declared type, which stands for an interface. -/
structure Pristine (tt : TypeTable) (e : TypeId) : Prop where
  bound : ∃ pkgPath name u ms inherited, tt.shape e = .named pkgPath name (some u) ms ∧ tt.shape u = .interface inherited
  built : ∀ t, tt.Knows t → t ≠ e → (tt.shape t).isDeclared = false
  parts : ∀ t, tt.Knows t → invalid ∉ (tt.shape t).components
  complete : ∀ t, tt.Knows t → t ≠ e → t ≠ invalid → (tt.layout t).isComplete = true

namespace Pristine

/-- What the declared type stands for is complete. -/
theorem bound_complete (h : small.Pristine e) (hmirrors : Mirrors start (fun _ => False) f small big) :
    ∃ pkgPath name u ms inherited ms', small.shape e = .named pkgPath name (some u) ms ∧
      small.shape u = .interface inherited ∧ (small.layout u).isComplete = true ∧
      big.shape (f e) = .named pkgPath name (some (f u)) ms' ∧ big.layout (f u) = small.layout u := by
  obtain ⟨pkgPath, name, u, ms, inherited, hs, hu⟩ := h.bound
  have he : small.Knows e := knows_of_shape_ne (by simp [hs])
  have hknows : small.Knows u := hmirrors.faithful.meant hs
  have hue : u ≠ e := by
    rintro rfl
    rw [hs] at hu
    cases hu
  have hvalid : u ≠ invalid := by
    rintro rfl
    rw [hmirrors.blank.2] at hu
    cases hu
  obtain ⟨ms', hs'⟩ := (hmirrors.echoes he).of_named hs
  exact ⟨pkgPath, name, u, ms, inherited, ms', hs, hu, h.complete u hknows hue hvalid, hs',
    hmirrors.even_of_built hknows (h.built u hknows hue)⟩

/-- All types of a pristine table are founded on the declared one. -/
theorem founded (h : small.Pristine e) (hmirrors : Mirrors start (fun _ => False) f small big) (ht : small.Knows t)
    (hne : t ≠ invalid) : big.Founded (· = f e) (f t) := by
  -- By induction on the place of the type: its parts were made before it.
  induction hi : t.index using Nat.strongRecOn generalizing t with
  | _ i ih =>
    subst hi
    by_cases hte : t = e
    · exact .given (congrArg f hte)
    · have hbuilt := h.built t ht hte
      have hs := (hmirrors.echoes ht).of_built hbuilt
      refine .built ?_ ?_ ?_
      · rw [hs, Shape.isDeclared_renamed, hbuilt]
      · intro heq
        refine hne (hmirrors.injective ht hmirrors.blank.1 ?_)
        rw [hmirrors.invalid_eq]
        exact hmirrors.faithful'.unique (hmirrors.knows ht) hmirrors.blank'.1 (by rw [heq]; rfl)
          (heq.trans hmirrors.blank'.2.symm)
      · rw [hs, Shape.components_renamed]
        intro part hpart
        obtain ⟨p, hp, rfl⟩ := List.mem_map.1 hpart
        refine ih p.index (hmirrors.faithful.ordered t p hp) (hmirrors.part_known ht hp) ?_ rfl
        rintro rfl
        exact h.parts t ht hp

/-- A type that was there before the declared one is not founded on it. -/
theorem founded_before (hsound : big.Sound) (he : start ≤ e.index) (h : big.Founded (· = e) t) (ht : t.index < start) :
    big.Founded (fun _ => False) t := by
  induction h with
  | given heq => exact absurd (heq ▸ ht) (Nat.not_lt.2 he)
  | @built t hbuilt hvalid _ ih =>
      exact .built hbuilt hvalid fun part hpart => ih part hpart (Nat.lt_trans (hsound.ordered t part hpart) ht)

theorem firm (h : small.Pristine e) (hmirrors : Mirrors start (fun _ => False) f small big) : big.Firm (· = f e) := by
  obtain ⟨pkgPath, name, u, ms, inherited, ms', hs, -, hcomplete, hs', hlayout⟩ := h.bound_complete hmirrors
  have he : small.Knows e := knows_of_shape_ne (by simp [hs])
  have hstart : start ≤ (f e).index := by
    by_contra hlt
    have hvalid : e ≠ invalid := by
      rintro rfl
      rw [hmirrors.blank.2] at hs
      cases hs
    cases hmirrors.founded he hvalid (Nat.not_le.1 hlt) with
    | given h => exact h
    | built hbuilt =>
        rw [hs'] at hbuilt
        cases hbuilt
  refine ⟨?_, fun {t} hfounded hne => ?_⟩
  · rintro t rfl
    exact ⟨pkgPath, name, f u, ms', hs', hlayout ▸ hcomplete⟩
  · by_cases ht : t.index < start
    · exact hmirrors.firm.complete (founded_before hmirrors.faithful'.toSound hstart hfounded ht) id
    · -- From `start` on, there are the types of the pristine table only.
      have hvalid : big.shape t ≠ .basic .invalid := by
        cases hfounded with
        | given heq => exact absurd heq hne
        | built _ hvalid _ => exact hvalid
      obtain ⟨x, hx, rfl⟩ := hmirrors.covered (knows_of_shape_ne hvalid) (Nat.not_lt.1 ht)
      have hxe : x ≠ e := fun heq => hne (congrArg f heq)
      have hxvalid : x ≠ invalid := by
        rintro rfl
        rw [hmirrors.invalid_eq] at hvalid
        exact hvalid hmirrors.blank'.2
      rw [hmirrors.even_of_built hx (h.built x hx hxe)]
      exact h.complete x hx hxe hxvalid

/-- A table that mirrors a pristine one goes on tracking it: only the declared type can get more methods. -/
theorem tracks (h : small.Pristine e) (hmirrors : Mirrors start (fun _ => False) f small big) (hblank : small.Blank)
    (hblank' : big.Blank) (hreaches : Reaches big big') : Tracks f small big' := by
  have hadvances := hreaches.advances hmirrors.faithful'
  have hext : Extends big big' := hadvances.toExtends
  have hrest : big'.AtRest := hadvances.atRest hmirrors.atRest'
  have hblanks : big'.Blank := hblank'.reaches hmirrors.blank'.1 hmirrors.faithful'.toSound hreaches
  obtain ⟨pkgPath, name, u, ms, inherited, ms', hs, hu, hcomplete, hs', hlayout⟩ := h.bound_complete hmirrors
  obtain ⟨ms'', hs''⟩ := hext.bound_eq hs'
  exact {
    faithful := hmirrors.faithful
    faithful' := hadvances.faithful
    target_eq := hadvances.target_eq.trans hmirrors.target_eq
    knows := fun ht => hext.knows (hmirrors.knows ht)
    injective := hmirrors.injective
    handles := hmirrors.handles
    echoes := fun {t} ht => by
      by_cases hte : t = e
      · subst hte
        exact .interface hs hs'' hu
      · have hbuilt := h.built t ht hte
        have heq := (hmirrors.echoes ht).of_built hbuilt
        apply Echoes.same
        rw [hext.shape_eq (hmirrors.knows ht) (by rw [heq, Shape.isDeclared_renamed, hbuilt]), heq]
    marks := fun _ => (hrest _).trans (hmirrors.atRest _).symm
    paced := fun {t} ht => by
      by_cases hte : t = e
      · subst hte
        have hcomplete' : (big.layout (f u)).isComplete = true := by rw [hlayout, hcomplete]
        have hbound : (big'.layout (f u)).isComplete = true := by rw [hadvances.frozen hcomplete', hcomplete']
        exact .inr ⟨⟨pkgPath, name, u, ms, hs, hcomplete, hmirrors.atRest t⟩,
          pkgPath, name, f u, ms'', hs'', hbound, hrest _⟩
      · apply Or.inl
        by_cases hvalid : t = invalid
        · rw [hvalid, Even, hmirrors.invalid_eq, hblanks.2, hblank.2]
        · have heven : big.layout (f t) = small.layout t := hmirrors.even_of_built ht (h.built t ht hte)
          rw [Even, hadvances.frozen (by rw [heven, h.complete t ht hte hvalid]), heven] }

/-- Whatever becomes of a table that mirrors a pristine one, it mirrors it still, and may do so from now on. -/
theorem mirrors (h : small.Pristine e) (hmirrors : Mirrors start (fun _ => False) f small big) (hblank : small.Blank)
    (hblank' : big.Blank) (hreaches : Reaches big big') : Mirrors big'.types.size (· = f e) f small big' where
  toTracks := h.tracks hmirrors hblank hblank' hreaches
  atRest := hmirrors.atRest
  atRest' := (hreaches.advances hmirrors.faithful').atRest hmirrors.atRest'
  blank := hmirrors.blank
  blank' := ⟨(hreaches.advances hmirrors.faithful').toExtends.knows hmirrors.blank'.1,
    (hblank'.reaches hmirrors.blank'.1 hmirrors.faithful'.toSound hreaches).1⟩
  variadic := hmirrors.variadic
  started := Nat.le_refl _
  covered ha hstart := absurd (Nat.lt_of_lt_of_le ha hstart) (Nat.lt_irrefl _)
  founded ht hne _ := (h.founded hmirrors ht hne).extends (hreaches.advances hmirrors.faithful').toExtends
  firm := (h.firm hmirrors).reaches hmirrors.faithful' hmirrors.atRest' hreaches

end Pristine

end GoSource.TypeTable
