import GoSource.Proofs.Typing.Tidy

/-!
# Types that are complete from the start

A type that is built from predeclared types, and from some declared types whose meanings are complete, is complete as
soon as it is made.  Nothing that is done to a table later shows in it.

* **`Founded`**: the types that are built in this way.
* **`Firm`**: a table in which they are complete.
* **`Firm.reaches`**: operations keep a table firm.
* **`Blank`**: nothing is known about the invalid type, and never will be.
-/

namespace GoSource.TypeTable

variable {tt tt' : TypeTable} {base base' : TypeId → Prop} {t u : TypeId} {s : Shape} {l : Layout}

/-- A type that is built from predeclared types and from those in `base`. -/
inductive Founded (tt : TypeTable) (base : TypeId → Prop) : TypeId → Prop where
  | given {t : TypeId} (h : base t) : Founded tt base t
  | built {t : TypeId} (hbuilt : (tt.shape t).isDeclared = false) (hvalid : tt.shape t ≠ .basic .invalid)
      (hparts : ∀ part ∈ (tt.shape t).components, Founded tt base part) : Founded tt base t

/-- Types that were founded later, but are known before, were founded before. -/
theorem Founded.before (h : tt'.Founded base t) (hext : Extends tt tt') (hsound : tt.Sound) (ht : tt.Knows t) :
    tt.Founded base t := by
  induction h with
  | given h => exact .given h
  | @built t hbuilt hvalid _ ih =>
      have hbuilt' : (tt.shape t).isDeclared = false := by
        by_contra hdeclared
        rw [hext.isDeclared (by simpa using hdeclared)] at hbuilt
        cases hbuilt
      have hs := hext.shape_eq ht hbuilt'
      rw [hs] at hvalid ih
      exact .built hbuilt' hvalid fun part hpart => ih part hpart (hsound.knows_part ht hpart)

theorem Founded.extends (h : tt.Founded base t) (hext : Extends tt tt') : tt'.Founded base t := by
  induction h with
  | given h => exact .given h
  | built hbuilt hvalid _ ih =>
      have hs := hext.shape_of_built rfl hbuilt hvalid
      refine .built ?_ ?_ ?_
      · rw [hs, hbuilt]
      · rw [hs]
        exact hvalid
      · rw [hs]
        exact ih

/-- The types in `base` stand for complete types, and all others that are founded on them are complete. -/
structure Firm (tt : TypeTable) (base : TypeId → Prop) : Prop where
  bound : ∀ {t}, base t → ∃ pkgPath name u ms, tt.shape t = .named pkgPath name (some u) ms ∧
    (tt.layout u).isComplete = true
  complete : ∀ {t}, tt.Founded base t → ¬base t → (tt.layout t).isComplete = true

/-- The layout of a shape is complete, if its parts have fingerprints and are completed in one attempt. -/
theorem Faithful.complete_of_layout (hf : tt.Faithful) (hbuilt : s.isDeclared = false) (hvalid : s ≠ .basic .invalid)
    (hknown : ∀ part ∈ s.components, tt.Knows part) (hhashed : ∀ part ∈ s.components, tt.Hashed part)
    (hcompleted : ∀ part ∈ s.components, ((complete part tt).2.layout part).isComplete = true)
    (hlayout : (s.layout tt.target fun part => completed part) tt = (.ok l, tt')) : l.isComplete = true := by
  have hsure : Ensures tt complete (· ∈ s.components) := fun part hpart tt'' hrefines =>
    (refining_complete part tt'' hrefines.faithful).hashed (hrefines.hashed (hhashed part hpart))
  obtain ⟨-, hanswer⟩ := grants_layout refining_complete hsure hf hbuilt hknown hf
  change (s.layout tt.target (ask complete)) tt = (.ok l, tt') at hlayout
  rw [ExceptT.run, hlayout] at hanswer
  obtain ⟨hsupported, hhash⟩ := hanswer l rfl
  by_cases harray : ∃ e n, s = .array e n
  · -- An array is complete if its element is.
    obtain ⟨e, n, rfl⟩ := harray
    have hn : n ≤ tt.target.maxSize := by
      by_contra hn
      rw [Shape.layout, if_pos (Nat.not_le.1 hn)] at hlayout
      cases congrArg Prod.fst hlayout
    rw [layout_array hn] at hlayout
    obtain ⟨-, rfl⟩ := array_eq_ok.1 (congrArg Prod.fst hlayout)
    exact hcompleted e (List.mem_singleton_self e)
  · refine hsupported.finished hbuilt ?_ (hhash hvalid fun part hpart => hpart)
    cases s with
    | array e n => exact absurd ⟨e, n, rfl⟩ harray
    | named => cases hbuilt
    | _ => rfl

/-- A complete array can be laid out again once its element is complete. -/
theorem Faithful.array_again {e : TypeId} {n : Nat} (hf : tt.Faithful) (hsupported : tt.Supported (tt.shape t) (tt.layout t))
    (hs : tt.shape t = .array e n) (hcomplete : (tt.layout t).isComplete = true)
    (he : ((complete e tt).2.layout e).isComplete = true) :
    ∃ l, ((Shape.array e n).layout tt.target fun part => completed part) tt = (.ok l, (complete e tt).2) := by
  have hrefines : Refines tt (complete e tt).2 := refining_complete e tt hf
  have hdescribed := hsupported.described hcomplete
  rw [hs] at hdescribed
  refine ⟨_, (layout_array (hf.fits hs)).trans (congrArg (·, _) (array_eq_ok.2 ⟨?_, rfl⟩))⟩
  generalize tt.layout t = l at hdescribed
  cases hdescribed with
  | reference hs => cases hs
  | @array _ _ size le helem hsize hfits =>
      have hsame : (complete e tt).2.layout e = le := by
        refine ((hrefines.faithful.supported e).described he).unique ?_
        refine helem.extends hrefines.extends hf.toSound hrefines.faithful.toSound (hf.knows_components e) ?_
        exact .inl (hrefines.shape_eq e)
      simp only [Layout.maxLength, hsame, hsize]
      split
      · exact hf.fits hs
      · next hpos => exact (Nat.le_div_iff_mul_le (Nat.pos_of_ne_zero hpos)).2 hfits

namespace Firm

/-- The types that a firm table has fingerprints of. -/
theorem hashed (h : tt.Firm base) (hf : tt.Faithful) (hfounded : tt.Founded base t) : tt.Hashed t := by
  by_cases hbase : base t
  · obtain ⟨pkgPath, name, u, ms, hs, -⟩ := h.bound hbase
    exact hf.hashed_named hs
  · exact hf.hashed_of_complete (h.complete hfounded hbase)

/-- Founded types are completed in one attempt. -/
theorem completed (h : tt.Firm base) (hf : tt.Faithful) (hrest : tt.AtRest) (ht : tt.Knows t)
    (hfounded : tt.Founded base t) : ((TypeTable.complete t tt).2.layout t).isComplete = true := by
  by_cases hbase : base t
  · obtain ⟨pkgPath, name, u, ms, hs, hu⟩ := h.bound hbase
    have hunderlying : tt.underlying? t = some u := by rw [underlying?, hs]
    have hready : tt.Ready t := ⟨u, hunderlying, .finished hu, .inl hu⟩
    exact hready.completed hf hrest ht
  · exact (refining_complete t tt hf).complete (h.complete hfounded hbase)

/-- The layout of a shape whose parts are founded is complete. -/
theorem complete_of_layout (h : tt.Firm base) (hf : tt.Faithful) (hrest : tt.AtRest) (hbuilt : s.isDeclared = false)
    (hvalid : s ≠ .basic .invalid) (hknown : ∀ part ∈ s.components, tt.Knows part)
    (hparts : ∀ part ∈ s.components, tt.Founded base part)
    (hlayout : (s.layout tt.target fun part => TypeTable.completed part) tt = (.ok l, tt')) : l.isComplete = true := by
  refine hf.complete_of_layout hbuilt hvalid hknown (fun part hpart => ?_) (fun part hpart => ?_) hlayout
  · exact h.hashed hf (hparts part hpart)
  · exact h.completed hf hrest (hknown part hpart) (hparts part hpart)

/-- A founded type would be laid out again as it was. -/
theorem layout_again (h : tt.Firm base) (hf : tt.Faithful) (hrest : tt.AtRest) (ht : tt.Knows t)
    (hbuilt : (tt.shape t).isDeclared = false) (hvalid : tt.shape t ≠ .basic .invalid)
    (hparts : ∀ part ∈ (tt.shape t).components, tt.Founded base part) (hcomplete : (tt.layout t).isComplete = true) :
    ∃ tt', ((tt.shape t).layout tt.target fun part => TypeTable.completed part) tt = (.ok (tt.layout t), tt') := by
  have hknown : ∀ part ∈ (tt.shape t).components, tt.Knows part := fun _ => hf.knows_part ht
  obtain ⟨hrefines, hanswer⟩ := grants_layout refining_complete (ensures_none _ _) hf hbuilt hknown hf
  change Refines tt (((tt.shape t).layout tt.target fun part => TypeTable.completed part) tt).2 at hrefines
  change ∀ l, (((tt.shape t).layout tt.target fun part => TypeTable.completed part) tt).1 = .ok l →
    Supported (((tt.shape t).layout tt.target fun part => TypeTable.completed part) tt).2 (tt.shape t) l ∧ _ at hanswer
  cases hrun : ((tt.shape t).layout tt.target fun part => TypeTable.completed part) tt with
  | mk outcome tt' =>
      rw [hrun] at hrefines hanswer
      cases outcome with
      | error fault =>
          by_cases harray : ∃ e n, tt.shape t = .array e n
          · obtain ⟨e, n, hs⟩ := harray
            have he : e ∈ (tt.shape t).components := by
              rw [hs]
              exact List.mem_singleton_self e
            obtain ⟨l, hl⟩ := hf.array_again (hf.supported t) hs hcomplete
              (h.completed hf hrest (hknown e he) (hparts e he))
            rw [hs] at hrun
            cases hrun.symm.trans hl
          · obtain ⟨l, tt'', hgranted⟩ := granted_layout (fun part => TypeTable.completed part) tt.target
              (s := tt.shape t) (fun e n hs => harray ⟨e, n, hs⟩) tt
            cases hrun.symm.trans hgranted
      | ok l =>
          have hl := (hanswer l rfl).1.described
            (h.complete_of_layout hf hrest hbuilt hvalid hknown hparts hrun)
          have ht' := (hrefines.faithful.supported t).described (hrefines.complete hcomplete)
          rw [hrefines.shape_eq] at ht'
          refine ⟨tt', ?_⟩
          rw [hl.unique ht', hrefines.layout_eq hcomplete]

/-- A later table is firm if the types that are new are complete. -/
theorem advances (h : tt.Firm base) (hsound : tt.Sound) (hadvances : Advances tt tt')
    (hnew : ∀ t, tt'.Knows t → ¬tt.Knows t → tt'.Founded base t → (tt'.layout t).isComplete = true) :
    tt'.Firm base := by
  constructor
  · intro t ht
    obtain ⟨pkgPath, name, u, ms, hs, hu⟩ := h.bound ht
    obtain ⟨ms', hs'⟩ := hadvances.toExtends.bound_eq hs
    refine ⟨pkgPath, name, u, ms', hs', ?_⟩
    rw [hadvances.frozen hu, hu]
  · intro t hfounded hbase
    by_cases ht : tt.Knows t
    · have hcomplete := h.complete (hfounded.before hadvances.toExtends hsound ht) hbase
      rw [hadvances.frozen hcomplete, hcomplete]
    · refine hnew t ?_ ht hfounded
      cases hfounded with
      | given h => exact absurd h hbase
      | built _ hvalid _ => exact knows_of_shape_ne hvalid

/-- The types in `base` are known. -/
theorem knows (h : tt.Firm base) (ht : base t) : tt.Knows t := by
  obtain ⟨pkgPath, name, u, ms, hs, -⟩ := h.bound ht
  exact knows_of_shape_ne (by rw [hs]; simp)

theorem intern (h : tt.Firm base) (hf : tt.Faithful) (hrest : tt.AtRest) (hbuilt : s.isDeclared = false)
    (hknown : ∀ part ∈ s.components, tt.Knows part) : (TypeTable.intern s tt).2.Firm base := by
  have hadvances := hf.intern hbuilt hknown
  refine h.advances hf.toSound hadvances fun t ht hnew hfounded => ?_
  cases hfind : tt.find? s with
  | some t' =>
      rw [intern_found hfind] at ht
      exact absurd ht hnew
  | none =>
      obtain ⟨outcome, tt₁, hlayout, hrelaid, ⟨fault, -, hrun⟩ | ⟨l, rfl, hrun⟩⟩ := intern_unfound hfind
      · rw [hrun, Knows, hrelaid.size_eq] at ht
        exact absurd ht hnew
      · have hext : Extends tt (tt₁.pushed s l) := by
          have hext := hadvances.toExtends
          rw [hrun] at hext
          exact hext
        rw [hrun] at ht hfounded ⊢
        have hlast : t.index = tt₁.types.size := by
          refine (knows_pushed.1 ht).resolve_right fun hold => hnew ?_
          rw [Knows, ← hrelaid.size_eq]
          exact hold
        have hs : (tt₁.pushed s l).shape t = s := by rw [shape_pushed, if_pos hlast]
        cases hfounded with
        | given hbase => exact absurd (h.knows hbase) hnew
        | built _ hvalid hparts =>
            rw [hs] at hvalid hparts
            rw [layout, info_pushed, if_pos hlast]
            refine h.complete_of_layout hf hrest hbuilt hvalid hknown (fun part hpart => ?_) hlayout
            exact (hparts part hpart).before hext hf.toSound (hknown part hpart)

/-- No operation makes a founded type that is not complete. -/
theorem step (h : tt.Firm base) (hf : tt.Faithful) (hrest : tt.AtRest) (hstep : tt.Step tt') : tt'.Firm base := by
  have hadvances := hstep.advances hf
  have hsame (hsize : tt'.types.size = tt.types.size) : tt'.Firm base := by
    refine h.advances hf.toSound hadvances fun t ht hnew => absurd ?_ hnew
    rw [Knows, ← hsize]
    exact ht
  cases hstep with
  | refused => exact h
  | intern hbuilt hknown => exact h.intern hf hrest hbuilt hknown
  | named pkgPath name =>
      refine h.advances hf.toSound hadvances fun t ht hnew hfounded => ?_
      have hlast : t.index = tt.types.size := (knows_pushed.1 ht).resolve_right hnew
      cases hfounded with
      | given hbase => exact absurd (h.knows hbase) hnew
      | built hbuilt =>
          rw [newNamed, add_run, shape_pushed, if_pos hlast] at hbuilt
          cases hbuilt
  | bind t hknown =>
      rename_i meaning
      obtain ⟨fault, hrun⟩ | ⟨pkgPath, name, ms, u, -, -, hrun⟩ := setUnderlying_cases t meaning tt
      · rw [hrun]
        exact h
      · apply hsame
        rw [hrun]
        simp [update]
  | method t m =>
      obtain ⟨outcome, hrun⟩ | ⟨pkgPath, name, bound, ms, -, hrun⟩ := addMethod_cases t m tt
      · rw [hrun]
        exact h
      · apply hsame
        rw [hrun]
        simp [update]
  | complete t => exact hsame (refining_complete t tt hf).size_eq

/-- Operations keep a table firm. -/
theorem reaches (h : tt.Firm base) (hf : tt.Faithful) (hrest : tt.AtRest) (hreaches : Reaches tt tt') :
    tt'.Firm base := by
  induction hreaches with
  | refl => exact h
  | step hreaches op hknown ih =>
      have hadvances := hreaches.advances hf
      exact ih.step hadvances.faithful (hadvances.atRest hrest) (hadvances.sound.step op hknown)

end Firm

/-- The table of the predeclared types is firm. -/
theorem firm_new (target : Target) : (new target).Firm fun _ => False := by
  refine ⟨fun h => h.elim, fun {t} hfounded hbase => ?_⟩
  cases hfounded with
  | given h => exact absurd h hbase
  | built _ hvalid _ =>
      obtain ⟨hs, hlayout⟩ := info_new target t
      have hkind : kindAt t ≠ .invalid := fun heq => hvalid (hs.trans (congrArg Shape.basic heq))
      rw [hlayout, Kind.layout, if_neg hkind]
      rfl

/-! ### The invalid type -/

/-- Nothing is known about the invalid type. -/
def Blank (tt : TypeTable) : Prop :=
  tt.shape invalid = .basic .invalid ∧ tt.layout invalid = {}

theorem composes_blank : Composes fun tt tt' => tt.Blank → tt'.Blank :=
  ⟨fun _ => id, fun h h' => h' ∘ h⟩

theorem blank_computeLayout {complete : TypeId → TableM Unit}
    (hcomplete : ∀ t, Leads (fun tt tt' => tt.Blank → tt'.Blank) (complete t)) (h : tt.Blank) (t : TypeId) :
    (computeLayout complete t tt).2.Blank := by
  cases hdeclared : (tt.shape t).isDeclared with
  | false =>
      rw [computeLayout_asks hdeclared]
      refine leads_bind composes_blank (leads_forM composes_blank hcomplete _) (fun _ => ?_) tt h
      refine leads_bind composes_blank ?_ fun _ => leads_pure composes_blank _
      exact leads_layout composes_blank (fun part => leads_bind composes_blank (hcomplete part) fun _ _ => id) _ _
  | true =>
      cases hs : tt.shape t with
      | named pkgPath name bound ms =>
          cases bound with
          | none =>
              rw [computeLayout_unbound hs]
              exact h
          | some u =>
              rw [computeLayout_bound hs]
              exact hcomplete u tt h
      | _ =>
          rw [hs] at hdeclared
          cases hdeclared

theorem leads_blank_completeWithin (room : Nat) (t : TypeId) :
    Leads (fun tt tt' => tt.Blank → tt'.Blank) (completeWithin room t) := by
  induction room generalizing t with
  | zero => exact leads_pure composes_blank _
  | succ room ih =>
      intro tt h
      cases hsettled : tt.isSettled t with
      | true =>
          rw [completeWithin_settled hsettled]
          exact h
      | false =>
          have hmarked : (tt.marked t).Blank := by
            refine ⟨?_, ?_⟩
            · rw [(relaid_marked tt t).shape_eq, h.1]
            · rw [layout_marked, h.2]
          have hinner := blank_computeLayout ih hmarked t
          rw [completeWithin_unsettled hsettled]
          by_cases ht : invalid = t
          · -- The layout that is computed for the invalid type says nothing.
            subst ht
            have hs := hmarked.1
            have hcomputed : computeLayout (completeWithin room) invalid (tt.marked invalid) =
                (some {}, tt.marked invalid) := by
              rw [computeLayout_asks (by rw [hs]; rfl), hs]
              rfl
            rw [hcomputed]
            refine ⟨?_, ?_⟩
            · rw [shape_update]
              split
              · exact hs
              · exact hs
            · rw [layout, info_update]
              split
              · rfl
              · exact hmarked.2
          · refine ⟨?_, ?_⟩
            · rw [shape_update, if_neg fun heq => ht heq.1, hinner.1]
            · rw [layout, info_update, if_neg fun heq => ht heq.1]
              exact hinner.2

theorem Blank.completed (h : tt.Blank) (t : TypeId) : (TypeTable.complete t tt).2.Blank :=
  leads_blank_completeWithin tt.types.size t tt h

theorem Blank.pushed (h : tt.Blank) (hknows : tt.Knows invalid) (s : Shape) (l : Layout) : (tt.pushed s l).Blank := by
  have hne : invalid.index ≠ tt.types.size := Nat.ne_of_lt hknows
  refine ⟨?_, ?_⟩
  · rw [shape_pushed, if_neg hne, h.1]
  · rw [layout, info_pushed, if_neg hne]
    exact h.2

theorem Blank.update (h : tt.Blank) (hdeclared : (tt.shape t).isDeclared = true) (f : TypeInfo → TypeInfo) :
    (tt.update t f).Blank := by
  have hne : invalid ≠ t := by
    rintro rfl
    rw [h.1] at hdeclared
    cases hdeclared
  refine ⟨?_, ?_⟩
  · rw [shape_update, if_neg fun heq => hne heq.1, h.1]
  · rw [layout, info_update, if_neg fun heq => hne heq.1]
    exact h.2

/-- No operation finds out anything about the invalid type. -/
theorem Blank.step (h : tt.Blank) (hknows : tt.Knows invalid) (hstep : tt.Step tt') : tt'.Blank := by
  cases hstep with
  | refused => exact h
  | @intern s hbuilt hknown =>
      cases hfind : tt.find? s with
      | some t =>
          rw [intern_found hfind]
          exact h
      | none =>
          obtain ⟨outcome, tt₁, hlayout, hrelaid, hcases⟩ := intern_unfound hfind
          have hquery (part : TypeId) : Leads (fun tt tt' => tt.Blank → tt'.Blank) (TypeTable.completed part) :=
            fun tt h => h.completed part
          have hblank := leads_layout composes_blank hquery tt.target s tt h
          change ((s.layout tt.target fun part => TypeTable.completed part) tt).2.Blank at hblank
          rw [hlayout] at hblank
          obtain ⟨fault, -, hrun⟩ | ⟨l, -, hrun⟩ := hcases
          · rw [hrun]
            exact hblank
          · rw [hrun]
            exact hblank.pushed (hrelaid.extends.knows hknows) s l
  | named pkgPath name => exact h.pushed hknows _ _
  | @bind t meaning _ =>
      obtain ⟨fault, hrun⟩ | ⟨pkgPath, name, ms, u, hs, -, hrun⟩ := setUnderlying_cases t meaning tt
      · rw [hrun]
        exact h
      · rw [hrun]
        exact h.update (by rw [hs]; rfl) _
  | method t m =>
      obtain ⟨outcome, hrun⟩ | ⟨pkgPath, name, bound, ms, hs, hrun⟩ := addMethod_cases t m tt
      · rw [hrun]
        exact h
      · rw [hrun]
        exact h.update (by rw [hs]; rfl) _
  | complete t => exact h.completed t

theorem blank_new (target : Target) : (new target).Blank ∧ (new target).Knows invalid := by
  obtain ⟨hs, hlayout⟩ := info_new target invalid
  refine ⟨⟨hs, hlayout⟩, ?_⟩
  rw [Knows, new, List.size_toArray, List.length_map]
  exact Nat.succ_pos _

theorem Blank.reaches (h : tt.Blank) (hknows : tt.Knows invalid) (hsound : tt.Sound) (hreaches : Reaches tt tt') :
    tt'.Blank := by
  induction hreaches with
  | refl => exact h
  | step hreaches op hknown ih =>
      have hgrows := hreaches.grows hsound
      exact ih.step (hgrows.knows hknows) (hgrows.sound.step op hknown)

end GoSource.TypeTable
