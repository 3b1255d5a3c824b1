import GoSource.Proofs.Typing.Completing

/-!
# Finished layouts are right and stay

Every operation keeps a table faithful, and leaves finished layouts as they are.

* **`Advances`**: what an operation does to the layouts of a table.
* **`Reaches.advances`**: the same for any number of operations.
* **`layouts_frozen`**: a finished layout is the one by structure, and never changes; what is known about an
  unfinished one is right.
-/

namespace GoSource.TypeTable

variable {tt tt' tt'' : TypeTable} {s : Shape} {t u : TypeId} {l : Layout}

/-! ### Operations and layouts -/

/-- No type is being completed. -/
def AtRest (tt : TypeTable) : Prop :=
  ∀ t, (tt.info t).completing = false

/-- What an operation does to layouts: it keeps them faithful, and finished ones as they are. -/
structure Advances (tt tt' : TypeTable) : Prop extends Grows tt tt' where
  faithful : tt'.Faithful
  frozen : ∀ {t}, (tt.layout t).isComplete = true → tt'.layout t = tt.layout t
  atRest : tt.AtRest → tt'.AtRest

theorem Advances.refl (h : tt.Faithful) : Advances tt tt :=
  ⟨.refl h.toSound, h, fun _ => rfl, id⟩

theorem Advances.trans (h : Advances tt tt') (h' : Advances tt' tt'') : Advances tt tt'' := by
  refine ⟨h.toGrows.trans h'.toGrows, h'.faithful, ?_, h'.atRest ∘ h.atRest⟩
  intro t ht
  have hlayout := h.frozen ht
  rw [h'.frozen (hlayout ▸ ht), hlayout]

theorem Refines.advances (h : Refines tt tt') (hsound : tt.Sound) : Advances tt tt' := by
  refine ⟨h.grows hsound, h.faithful, h.layout_eq, ?_⟩
  intro hrest t
  rw [h.completing_eq]
  exact hrest t

theorem refining_complete : Refining complete :=
  fun t tt h => completeWithin_refines tt.types.size t tt h

theorem knows_of_hashed (h : tt.Hashed t) : tt.Knows t := by
  by_contra ht
  rw [Hashed, layout, info_of_not_knows ht] at h
  cases h

theorem knows_of_complete (h : (tt.layout t).isComplete = true) : tt.Knows t := by
  by_contra ht
  rw [layout, info_of_not_knows ht] at h
  cases h

/-! ### New types -/

/-- A new type with a supported layout. -/
theorem Faithful.pushed (h : tt.Faithful) (hfresh : tt.Fresh s l) (hsupported : tt.Supported s l) :
    Advances tt (tt.pushed s l) := by
  have hsound := h.toSound.pushed hfresh
  have hlayout {t : TypeId} (ht : t.index ≠ tt.types.size) : (tt.pushed s l).layout t = tt.layout t := by
    rw [layout, info_pushed, if_neg ht]
    rfl
  have hold {t : TypeId} (ht : tt.Knows t) : (tt.pushed s l).layout t = tt.layout t := hlayout (Nat.ne_of_lt ht)
  have hcarries : Carries tt (tt.pushed s l) := by
    refine ⟨extends_pushed tt s l, ?_, ?_⟩
    · intro t ht
      rw [hold (knows_of_complete ht)]
      exact ht
    · intro t ht
      rw [Hashed, hold (knows_of_hashed ht)]
      exact ht
  refine ⟨⟨hcarries.toExtends, hsound⟩, h.carry hcarries hsound fun t => ?_, ?_, ?_⟩
  · by_cases ht : t.index = tt.types.size
    · have hshape : (tt.pushed s l).shape t = s := by rw [shape_pushed, if_pos ht]
      have hnew : (tt.pushed s l).layout t = l := by rw [layout, info_pushed, if_pos ht]
      refine .inr ⟨?_, ?_⟩
      · rw [hshape, hnew]
        exact hsupported.carry hcarries h.toSound hsound hfresh.known (.refl s)
      · intro pkgPath name u ms hs
        exact absurd (hshape.symm.trans hs) (hfresh.unbound pkgPath name u ms)
    · refine .inl ⟨.inl ?_, hlayout ht⟩
      rw [shape_pushed, if_neg ht]
  · intro t ht
    exact hold (knows_of_complete ht)
  · intro hrest t
    rw [info_pushed]
    split
    · rfl
    · exact hrest t

/-- A type that is not there yet is refused, or added once the types that it is built from are completed. -/
theorem Faithful.intern_unfound (h : tt.Faithful) (hfind : tt.find? s = none) (hbuilt : s.isDeclared = false)
    (hknown : ∀ part ∈ s.components, tt.Knows part) :
    ∃ outcome tt', (s.layout tt.target fun part => completed part) tt = (outcome, tt') ∧ Refines tt tt' ∧
      ((∃ fault, outcome = .error fault ∧ TypeTable.intern s tt = (.error fault, tt')) ∨
        ∃ l, outcome = .ok l ∧ TypeTable.intern s tt = (.ok ⟨tt'.types.size⟩, tt'.pushed s l) ∧
          Advances tt' (tt'.pushed s l)) := by
  obtain ⟨outcome, tt', hlayout, hrelaid, hcases⟩ := TypeTable.intern_unfound hfind
  obtain ⟨hrefines, hanswer⟩ := grants_layout refining_complete (ensures_none _ _) h hbuilt hknown h
  change Refines tt ((s.layout tt.target fun part => completed part) tt).2 at hrefines
  change ∀ l, ((s.layout tt.target fun part => completed part) tt).1 = .ok l →
    Supported ((s.layout tt.target fun part => completed part) tt).2 s l ∧ _ at hanswer
  rw [hlayout] at hrefines hanswer
  refine ⟨outcome, tt', hlayout, hrefines, ?_⟩
  obtain hrefused | ⟨l, rfl, hrun⟩ := hcases
  · exact .inl hrefused
  · refine .inr ⟨l, rfl, hrun, ?_⟩
    exact hrefines.faithful.pushed (fresh_of_layout hfind hbuilt hknown hrelaid hlayout) (hanswer l rfl).1

theorem Faithful.intern (h : tt.Faithful) (hbuilt : s.isDeclared = false)
    (hknown : ∀ part ∈ s.components, tt.Knows part) : Advances tt (intern s tt).2 := by
  cases hfind : tt.find? s with
  | some t =>
      rw [intern_found hfind]
      exact .refl h
  | none =>
      obtain ⟨outcome, tt', -, hrefines, hcases⟩ := h.intern_unfound hfind hbuilt hknown
      have hadvances := hrefines.advances h.toSound
      obtain ⟨fault, -, hrun⟩ | ⟨l, -, hrun, hpushed⟩ := hcases
      · rw [hrun]
        exact hadvances
      · rw [hrun]
        exact hadvances.trans hpushed

/-! ### Declared types -/

/-- Nothing is known about a declared type that stands for nothing. -/
theorem not_describes_unbound {pkgPath name : String} {ms : List Method} :
    ¬tt.Describes (.named pkgPath name none ms) l := by
  intro h
  cases h with
  | reference hs => cases hs

theorem Faithful.newNamed (h : tt.Faithful) (pkgPath name : String) : Advances tt (newNamed pkgPath name tt).2 := by
  refine h.pushed (fresh_named tt pkgPath name) ⟨?_, ?_, ?_, ?_, ?_, ?_⟩
  · intro hhash
    cases hhash
  · intro size hsize
    cases hsize
  · intro hcomplete
    cases hcomplete
  · intro hcomplete
    cases hcomplete
  · intro hhash
    cases hhash
  · intro hbuilt
    cases hbuilt

/-- Changing what is recorded about a declared type that is not finished, or changing its methods only. -/
theorem Faithful.redeclare {f : TypeInfo → TypeInfo} (h : tt.Faithful) (hgrows : Grows tt (tt.update t f))
    (ht : tt.Knows t) (hcompleting : ∀ info, (f info).completing = info.completing)
    (hcomplete : (tt.layout t).isComplete = true → (f (tt.info t)).layout = tt.layout t)
    (hhashed : tt.Hashed t → (f (tt.info t)).layout.hash.isUnknown = false)
    (hvouched : Alike (tt.shape t) (f (tt.info t)).shape ∧ (f (tt.info t)).layout = tt.layout t ∨
      (Carries tt (tt.update t f) → (tt.update t f).Vouched t)) : Advances tt (tt.update t f) := by
  have hinfo {s : TypeId} (hne : s ≠ t) : (tt.update t f).info s = tt.info s := by
    rw [info_update, if_neg fun heq => hne heq.1]
  have hself : (tt.update t f).info t = f (tt.info t) := by rw [info_update, if_pos ⟨rfl, ht⟩]
  have hfrozen {s : TypeId} (hs : (tt.layout s).isComplete = true) : (tt.update t f).layout s = tt.layout s := by
    by_cases hst : s = t
    · subst hst
      rw [layout, hself, hcomplete hs]
    · rw [layout, hinfo hst]
      rfl
  have hcarries : Carries tt (tt.update t f) := by
    refine ⟨hgrows.toExtends, fun hs => hfrozen hs ▸ hs, ?_⟩
    intro s hs
    by_cases hst : s = t
    · subst hst
      rw [Hashed, layout, hself]
      exact hhashed hs
    · rw [Hashed, layout, hinfo hst]
      exact hs
  refine ⟨hgrows, h.carry hcarries hgrows.sound fun s => ?_, hfrozen, ?_⟩
  · by_cases hst : s = t
    · subst hst
      refine hvouched.imp (fun hsame => ?_) fun hnew => hnew hcarries
      rw [shape, shape, layout, hself]
      exact hsame
    · rw [shape, shape, layout, hinfo hst]
      exact .inl ⟨.refl _, rfl⟩
  · intro hrest s
    by_cases hst : s = t
    · rw [hst, hself, hcompleting]
      exact hrest t
    · rw [hinfo hst]
      exact hrest s

/-- A declared type of which nothing but the fingerprint is known. -/
theorem supported_bound {pkgPath name : String} {ms : List Method} (hhash : l.hash = .ofName pkgPath name)
    (hsize : l.size = none) (hincomplete : l.traits.complete = false) :
    tt.Supported (.named pkgPath name (some u) ms) l where
  hash_eq _ := hhash
  size_eq hsome := by
    rw [hsize] at hsome
    cases hsome
  described hcomplete := by
    rw [Layout.isComplete, hincomplete] at hcomplete
    cases hcomplete
  contained hcomplete := by
    rw [Layout.isComplete, hincomplete] at hcomplete
    cases hcomplete
  grounded _ part hpart := by cases hpart
  finished hbuilt := by cases hbuilt

theorem Faithful.unbound {pkgPath name : String} {ms : List Method} (h : tt.Faithful)
    (hs : tt.shape t = .named pkgPath name none ms) :
    (tt.layout t).size = none ∧ (tt.layout t).isComplete = false := by
  have hsupported := h.supported t
  rw [hs] at hsupported
  constructor
  · cases hsome : (tt.layout t).size with
    | none => rfl
    | some size =>
        obtain ⟨d, hd, -⟩ := hsupported.size_eq hsome
        exact absurd hd not_describes_unbound
  · cases hcomplete : (tt.layout t).isComplete with
    | false => rfl
    | true => exact absurd (hsupported.described hcomplete) not_describes_unbound

/-- A declared type gets its meaning: its fingerprint becomes known, and nothing else about its values. -/
theorem Faithful.bind {pkgPath name : String} {ms : List Method} {hash : Fingerprint} {k : Kind} (h : tt.Faithful)
    (hs : tt.shape t = .named pkgPath name none ms) (hhash : hash = .ofName pkgPath name)
    (hgrows : Grows tt (tt.update t fun info =>
      { info with shape := .named pkgPath name (some u) ms, layout := { info.layout with kind := k, hash } })) :
    Advances tt (tt.update t fun info =>
      { info with shape := .named pkgPath name (some u) ms, layout := { info.layout with kind := k, hash } }) := by
  have ht : tt.Knows t := knows_of_shape_ne (by rw [hs]; simp)
  obtain ⟨hsize, hincomplete⟩ := h.unbound hs
  refine h.redeclare hgrows ht (fun _ => rfl) ?_ ?_ (.inr fun _ => ⟨?_, ?_⟩)
  · intro hcomplete
    rw [hincomplete] at hcomplete
    cases hcomplete
  · intro _
    show hash.isUnknown = false
    rw [hhash, Fingerprint.isUnknown_ofName]
  · rw [shape_update, if_pos ⟨rfl, ht⟩, layout, info_update, if_pos ⟨rfl, ht⟩]
    exact supported_bound hhash hsize hincomplete
  · intro pkgPath' name' u' ms' hs'
    rw [shape_update, if_pos ⟨rfl, ht⟩] at hs'
    cases hs'
    rw [layout, info_update, if_pos ⟨rfl, ht⟩]
    exact hhash

theorem Faithful.setUnderlying {meaning : TypeId} (h : tt.Faithful) (hm : tt.Knows meaning) :
    Advances tt (setUnderlying t meaning tt).2 := by
  have hgrows := h.toSound.setUnderlying (t := t) hm
  obtain ⟨fault, hrun⟩ | ⟨pkgPath, name, ms, u, hs, hu, hrun⟩ := setUnderlying_cases t meaning tt
  · rw [hrun]
    exact .refl h
  · rw [hrun] at hgrows ⊢
    exact h.bind hs (Fingerprint.ofName.eq_1 pkgPath name).symm hgrows

theorem Faithful.addMethod (h : tt.Faithful) (m : Method) : Advances tt (addMethod t m tt).2 := by
  have hgrows := h.toSound.addMethod (t := t) m
  obtain ⟨outcome, hrun⟩ | ⟨pkgPath, name, bound, ms, hs, hrun⟩ := addMethod_cases t m tt
  · rw [hrun]
    exact .refl h
  · rw [hrun] at hgrows ⊢
    have ht : tt.Knows t := knows_of_shape_ne (by rw [hs]; simp)
    refine h.redeclare hgrows ht (fun _ => rfl) (fun _ => rfl) id (.inl ⟨?_, rfl⟩)
    exact .inr ⟨pkgPath, name, bound, ms, _, hs, rfl⟩

/-! ### All operations -/

/-- An operation keeps layouts faithful, and finished ones as they are. -/
theorem Step.advances (hstep : tt.Step tt') (h : tt.Faithful) : Advances tt tt' := by
  cases hstep with
  | refused => exact .refl h
  | intern hbuilt hparts => exact h.intern hbuilt hparts
  | named pkgPath name => exact h.newNamed pkgPath name
  | bind t hm => exact h.setUnderlying hm
  | method t m => exact h.addMethod m
  | complete t => exact (refining_complete t tt h).advances h.toSound

theorem Reaches.advances (h : Reaches tt tt') (hfaithful : tt.Faithful) : Advances tt tt' := by
  induction h with
  | refl => exact .refl hfaithful
  | step _ op hknown ih => exact ih.trans ((ih.sound.step op hknown).advances ih.faithful)

theorem faithful_new (target : Target) : (new target).Faithful := by
  refine ⟨sound_new target, fun t => ?_⟩
  obtain ⟨hshape, hlayout⟩ := info_new target t
  refine ⟨?_, ?_⟩
  · rw [hshape, hlayout]
    exact supported_basic (new target) (kindAt t)
  · intro pkgPath name u ms hs
    rw [hshape] at hs
    cases hs

/-- An array that is laid out has fewer bytes than a word can count. -/
theorem mul_lt_word {target : Target} {elem : Layout} {n size : Nat} (harray : elem.array target n = .ok l)
    (hsize : elem.size = some size) : n * size < UInt64.size := by
  have hmax : target.maxSize < UInt64.size := by
    cases target <;> decide
  exact Nat.lt_of_le_of_lt (mul_le_maxSize (array_eq_ok.1 harray).1 hsize) hmax

/-- In every table that can be reached, a finished layout is known in all its parts, fits into the address space, is
either comparable or not, is the one by structure, and stands on finished layouts; and it never changes any more.
Finished or not, a known fingerprint and a known size are those of the structure.  Sizes of arrays are computed only
where they fit into a word. -/
theorem layouts_frozen {target : Target} (h : Reaches (new target) tt) :
    (∀ t, (tt.layout t).isComplete = true →
      (∃ size align, (tt.layout t).size = some size ∧ (tt.layout t).align = some align ∧ size ≤ target.maxSize) ∧
      (tt.layout t).hash.isUnknown = false ∧
      (tt.layout t).traits.comparable = !(tt.layout t).traits.incomparable ∧
      (∀ l, tt.Describes (tt.shape t) l ↔ l = tt.layout t) ∧
      (∀ u ∈ (tt.shape t).byValue, (tt.layout u).isComplete = true) ∧
      ∀ tt', Reaches tt tt' → tt'.layout t = tt.layout t) ∧
    (∀ t, ((tt.layout t).hash.isUnknown = false → (tt.layout t).hash = tt.fingerprint t) ∧
      ∀ size, (tt.layout t).size = some size → ∃ l, tt.Describes (tt.shape t) l ∧ l.size = some size) ∧
    ∀ (elem l : Layout) (n size : Nat), elem.array target n = .ok l → elem.size = some size →
      n * size < UInt64.size := by
  have hadvances := h.advances (faithful_new target)
  have hfaithful := hadvances.faithful
  have htarget : tt.target = target := hadvances.target_eq
  refine ⟨fun t hcomplete => ?_, fun t => ⟨fun hhash => ?_, fun size => (hfaithful.supported t).size_eq⟩, ?_⟩
  · have hsupported := hfaithful.supported t
    have hdescribed := hsupported.described hcomplete
    refine ⟨htarget ▸ hdescribed.size_le, hfaithful.hashed_of_complete hcomplete, hdescribed.comparable_eq, ?_,
      hsupported.contained hcomplete, fun tt' h' => (h'.advances hfaithful).frozen hcomplete⟩
    intro l
    constructor
    · intro hl
      exact hl.unique hdescribed
    · rintro rfl
      exact hdescribed
  · rw [hfaithful.fingerprint_eq]
    exact (hfaithful.supported t).hash_eq hhash
  · intro elem l n size harray hsize
    exact mul_lt_word harray hsize

/-- Three integers. -/
theorem layouts_frozen_array :
    let tt := (newArray (basic .int) 3 (new .amd64)).2
    (tt.layout ⟨26⟩).isComplete = true ∧ (tt.layout ⟨26⟩).size = some 24 ∧
      ∀ tt', Reaches tt tt' → (tt'.layout ⟨26⟩).size = some 24 := by
  intro tt
  have hreach : Reaches (new .amd64) tt := .step .refl (.array (basic .int) 3) (by decide +kernel)
  have hcomplete : (tt.layout ⟨26⟩).isComplete = true := by decide +kernel
  have hsize : (tt.layout ⟨26⟩).size = some 24 := by decide +kernel
  obtain ⟨-, -, -, -, -, hfrozen⟩ := (layouts_frozen hreach).1 ⟨26⟩ hcomplete
  refine ⟨hcomplete, hsize, fun tt' h' => ?_⟩
  rw [hfrozen tt' h']
  exact hsize

end GoSource.TypeTable
