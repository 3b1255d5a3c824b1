import GoSource.Proofs.Typing.Canonical
import GoSource.Proofs.Typing.Completable
import GoSource.Proofs.Typing.Refusals

/-!
# Tables whose arrays are finished

An array that is made too early can need a second attempt to be completed.  In a tidy table all arrays are finished,
and one attempt completes every type that is not built on a declared type without a meaning.

* **`Mentions`**: the declared types that a type is built from.
* **`Sure`**, **`hashed_of_sure`**: fingerprints that one attempt finds.
* **`Ready`**, **`Ready.completed`**: types that one attempt completes.
* **`Tidy`**, **`Tidy.ready`**: where all declared types that are mentioned have a meaning, a type is ready.
* **`Tidy.intern`**, **`Tidy.newArray`**: tables stay tidy, if arrays are made of elements that are ready.
-/

namespace GoSource.TypeTable

variable {tt tt' : TypeTable} {s : Shape} {t u c x e : TypeId} {l : Layout} {n room : Nat}

/-! ### Mentioned types -/

/-- The type `t` is the declared type `c` or is built from it.  What a declared type stands for is not looked at. -/
inductive Mentions (tt : TypeTable) : TypeId → TypeId → Prop where
  | self {t : TypeId} (h : (tt.shape t).isDeclared = true) : Mentions tt t t
  | part {t part c : TypeId} (hpart : part ∈ (tt.shape t).components) (h : Mentions tt part c) : Mentions tt t c

theorem components_of_declared (h : s.isDeclared = true) : s.components = [] := by
  cases s with
  | named => rfl
  | _ => cases h

/-- A declared type mentions itself only. -/
theorem Mentions.eq_of_declared (h : tt.Mentions t c) (ht : (tt.shape t).isDeclared = true) : c = t := by
  cases h with
  | self => rfl
  | part hpart =>
      rw [components_of_declared ht] at hpart
      cases hpart

theorem Mentions.declared (h : tt.Mentions t c) : (tt.shape c).isDeclared = true := by
  induction h with
  | self h => exact h
  | part _ _ ih => exact ih

/-- A built type mentions what its parts mention. -/
theorem Mentions.of_built (h : tt.Mentions t c) (ht : (tt.shape t).isDeclared = false) :
    ∃ part ∈ (tt.shape t).components, tt.Mentions part c := by
  cases h with
  | self h =>
      rw [ht] at h
      cases h
  | part hpart h => exact ⟨_, hpart, h⟩

/-- Declared types stay declared. -/
theorem Extends.isDeclared (h : Extends tt tt') (ht : (tt.shape t).isDeclared = true) :
    (tt'.shape t).isDeclared = true := by
  cases hs : tt.shape t with
  | named pkgPath name bound ms =>
      obtain ⟨bound', ms', hs', -⟩ := h.named_eq hs
      rw [hs']
      rfl
  | _ =>
      rw [hs] at ht
      cases ht

theorem Extends.valid (h : Extends tt tt') (ht : tt.shape t ≠ .basic .invalid) : tt'.shape t ≠ .basic .invalid := by
  cases hbuilt : (tt.shape t).isDeclared with
  | false =>
      rw [h.shape_of_built rfl hbuilt ht]
      exact ht
  | true =>
      intro hs
      have hdeclared := h.isDeclared hbuilt
      rw [hs] at hdeclared
      cases hdeclared

/-- A type that is known mentions nothing new. -/
theorem Extends.mentions (h : Extends tt tt') (hsound : tt.Sound) (ht : tt.Knows t) (hc : tt'.Mentions t c) :
    tt.Mentions t c := by
  induction hc with
  | @self t hdeclared =>
      refine .self ?_
      cases hbuilt : (tt.shape t).isDeclared with
      | true => rfl
      | false =>
          rw [h.shape_eq ht hbuilt, hbuilt] at hdeclared
          cases hdeclared
  | @part t part c hpart _ ih =>
      have hbuilt : (tt.shape t).isDeclared = false := by
        by_contra hdeclared
        rw [components_of_declared (h.isDeclared (by simpa using hdeclared))] at hpart
        cases hpart
      rw [h.shape_eq ht hbuilt] at hpart
      exact .part hpart (ih (hsound.knows_part ht hpart))

/-! ### Fingerprints -/

/-- A type whose fingerprint is found at the first attempt: it is finished, or has a meaning, or is built from such
types and is no array. -/
inductive Sure (tt : TypeTable) : TypeId → Prop where
  | finished {t : TypeId} (h : (tt.layout t).isComplete = true) : Sure tt t
  | bound {t u : TypeId} {pkgPath name : String} {ms : List Method}
      (hs : tt.shape t = .named pkgPath name (some u) ms) : Sure tt t
  | built {t : TypeId} (hbuilt : (tt.shape t).isDeclared = false) (hvalid : tt.shape t ≠ .basic .invalid)
      (harray : ∀ e n, tt.shape t ≠ .array e n) (hparts : ∀ part ∈ (tt.shape t).components, Sure tt part) : Sure tt t

theorem Sure.extends (h : tt.Sure t) (hext : Extends tt tt')
    (hcomplete : ∀ {t}, (tt.layout t).isComplete = true → (tt'.layout t).isComplete = true) : tt'.Sure t := by
  induction h with
  | finished h => exact .finished (hcomplete h)
  | bound hs =>
      obtain ⟨ms', hs'⟩ := hext.bound_eq hs
      exact .bound hs'
  | built hbuilt hvalid harray _ ih =>
      have hs := hext.shape_of_built rfl hbuilt hvalid
      refine .built ?_ ?_ ?_ fun part hpart => ih part ?_
      · rw [hs]
        exact hbuilt
      · rw [hs]
        exact hvalid
      · rw [hs]
        exact harray
      · rw [hs] at hpart
        exact hpart

theorem Sure.marked (h : tt.Sure x) (t : TypeId) : (tt.marked t).Sure x := by
  refine h.extends (relaid_marked tt t).extends fun {s} hs => ?_
  rw [layout_marked]
  exact hs

/-- A layout is computed for a built type that is no array. -/
theorem computeLayout_of_built (hbuilt : (tt.shape t).isDeclared = false) (harray : ∀ e n, tt.shape t ≠ .array e n)
    (room : Nat) : ∃ l, (computeLayout (completeWithin room) t tt).1 = some l := by
  obtain ⟨l, tt', hl⟩ := granted_layout (ask (completeWithin room)) tt.target harray
    ((tt.shape t).components.forM (completeWithin room) tt).2
  refine ⟨l, ?_⟩
  rw [computeLayout_asks hbuilt]
  show Except.toOption ((tt.shape t).layout tt.target (ask (completeWithin room))
    ((tt.shape t).components.forM (completeWithin room) tt).2).1 = some l
  rw [hl]
  rfl

/-- Where there is room, a type that is not marked can be entered. -/
theorem enter_of_room (hroom : tt.unmarked.card ≤ room) (ht : tt.Knows t) (hmark : (tt.info t).completing = false) :
    ∃ room', room = room' + 1 ∧ (tt.marked t).unmarked.card ≤ room' := by
  have hcard := card_unmarked_marked ht hmark
  exact ⟨room - 1, by omega, by omega⟩

/-- Completing a type finds its fingerprint, if the types that are marked further out do not stand in the way: they
were made later, or have fingerprints. -/
theorem hashed_of_sure (h : tt.Faithful) (hroom : tt.unmarked.card ≤ room) (hsure : tt.Sure t)
    (hfree : ∀ x, (tt.info x).completing = true → t.index < x.index ∨ tt.Hashed x) :
    (completeWithin room t tt).2.Hashed t := by
  -- By induction on the place of the type: its parts were made before it.
  induction hi : t.index using Nat.strongRecOn generalizing t tt room with
  | _ i ih =>
      subst hi
      have hrefines := completeWithin_refines room t tt h
      by_cases hhashed : tt.Hashed t
      · exact hrefines.hashed hhashed
      cases hsure with
      | finished hcomplete => exact absurd (h.hashed_of_complete hcomplete) hhashed
      | bound hs => exact absurd (h.hashed_named hs) hhashed
      | built hbuilt hvalid harray hparts =>
          have ht := knows_of_shape_ne hvalid
          have hmark : (tt.info t).completing = false := by
            by_contra hmark
            exact (hfree t (by simpa using hmark)).elim (Nat.lt_irrefl _) hhashed
          have hincomplete : (tt.layout t).isComplete = false := by
            by_contra hcomplete
            exact hhashed (h.hashed_of_complete (by simpa using hcomplete))
          obtain ⟨room', rfl, hroom'⟩ := enter_of_room hroom ht hmark
          have hsettled : tt.isSettled t = false := by rw [isSettled, hincomplete, hmark, Bool.or_false]
          have hmarked := h.marked t
          have hshape : (tt.marked t).shape t = tt.shape t := (relaid_marked tt t).shape_eq t
          have hsure : Ensures (tt.marked t) (completeWithin room') (· ∈ (tt.shape t).components) := by
            intro part hpart tt' hrefines'
            have hsmaller := h.ordered t part hpart
            refine ih part.index hsmaller hrefines'.faithful ?_ ?_ ?_ rfl
            · rw [hrefines'.unmarked_eq]
              exact hroom'
            · exact ((hparts part hpart).marked t).extends hrefines'.extends hrefines'.complete
            · intro x hx
              rw [hrefines'.completing_eq] at hx
              by_cases hxt : x = t
              · subst hxt
                exact .inl hsmaller
              · rw [info_marked_of_ne hxt] at hx
                refine (hfree x hx).imp (Nat.lt_trans hsmaller) fun hx => hrefines'.hashed ?_
                rw [Hashed, layout_marked]
                exact hx
          obtain ⟨-, hanswer⟩ := yields_computeLayout (completeWithin_refines room') hsure hmarked t hmarked
          rw [← hshape] at hbuilt harray
          obtain ⟨l, hl⟩ := computeLayout_of_built hbuilt harray room'
          rw [Hashed, completeWithin_layout h hsettled ht hl]
          rw [hshape] at hanswer
          exact (hanswer l hl).2.2 hvalid fun part hpart => hpart

/-! ### Types that one attempt completes -/

/-- A type that one attempt completes: it stands for a type whose fingerprint is found, and which is no array or is
finished. -/
def Ready (tt : TypeTable) (t : TypeId) : Prop :=
  ∃ u, tt.underlying? t = some u ∧ tt.Sure u ∧
    ((tt.layout u).isComplete = true ∨ (tt.shape u).isDeclared = false ∧ (tt.shape u).byValue = [])

/-- A built type stands for itself. -/
theorem underlying?_of_built (h : (tt.shape t).isDeclared = false) : tt.underlying? t = some t := by
  rw [underlying?]
  split
  · next hs =>
      rw [hs] at h
      cases h
  · rfl

/-- What is known to stand for something goes on to stand for it. -/
theorem Extends.underlying?_eq (h : Extends tt tt') (ht : tt.Knows t) (hu : tt.underlying? t = some u) :
    tt'.underlying? t = some u := by
  cases hs : tt.shape t with
  | named pkgPath name bound ms =>
      rw [underlying?, hs] at hu
      dsimp only at hu
      subst hu
      obtain ⟨ms', hs'⟩ := h.bound_eq hs
      rw [underlying?, hs']
  | _ =>
      have hbuilt : (tt.shape t).isDeclared = false := by
        rw [hs]
        rfl
      rw [underlying?_of_built (by rw [h.shape_eq ht hbuilt]; exact hbuilt), ← underlying?_of_built hbuilt]
      exact hu

theorem Ready.extends (h : tt.Ready t) (ht : tt.Knows t) (hext : Extends tt tt')
    (hcomplete : ∀ {t}, (tt.layout t).isComplete = true → (tt'.layout t).isComplete = true) : tt'.Ready t := by
  obtain ⟨u, hu, hsure, hlast⟩ := h
  refine ⟨u, hext.underlying?_eq ht hu, hsure.extends hext hcomplete, ?_⟩
  obtain hfinished | ⟨hbuilt, hempty⟩ := hlast
  · exact .inl (hcomplete hfinished)
  · cases hsure with
    | finished hfinished => exact .inl (hcomplete hfinished)
    | bound hs =>
        rw [hs] at hbuilt
        cases hbuilt
    | built _ hvalid _ _ =>
        rw [hext.shape_of_built rfl hbuilt hvalid]
        exact .inr ⟨hbuilt, hempty⟩

/-- An attempt that finds the fingerprint of such a type finishes it. -/
theorem complete_of_hashed (h : tt.Faithful) (hhashed : tt.Hashed u)
    (hlast : (tt.layout u).isComplete = true ∨ (tt.shape u).isDeclared = false ∧ (tt.shape u).byValue = []) :
    (tt.layout u).isComplete = true := by
  obtain hfinished | ⟨hbuilt, hempty⟩ := hlast
  · exact hfinished
  · exact (h.supported u).finished hbuilt hempty hhashed

/-- One attempt completes a type that is ready. -/
theorem Ready.completed (h : tt.Ready t) (hf : tt.Faithful) (hrest : tt.AtRest) (ht : tt.Knows t) :
    ((complete t tt).2.layout t).isComplete = true := by
  have hrefines : Refines tt (complete t tt).2 := refining_complete t tt hf
  have hroom : tt.unmarked.card ≤ tt.types.size := (Finset.card_filter_le _ _).trans (Finset.card_range _).le
  obtain ⟨u, hu, hsure, hlast⟩ := h
  -- A mark would be one that was set further out, and there is none.
  have hfree (u : TypeId) : ∀ x, (tt.info x).completing = true → u.index < x.index ∨ tt.Hashed x := by
    intro x hx
    rw [hrest x] at hx
    cases hx
  by_cases hdeclared : ∃ pkgPath name ms, tt.shape t = .named pkgPath name (some u) ms
  · obtain ⟨pkgPath, name, ms, hs⟩ := hdeclared
    by_cases hcomplete : (tt.layout t).isComplete = true
    · exact hrefines.complete hcomplete
    have hsettled : tt.isSettled t = false := by rw [isSettled, hrest t, Bool.or_false]; simpa using hcomplete
    obtain ⟨room, hsize, hroom'⟩ := enter_of_room hroom ht (hrest t)
    have hmarked := hf.marked t
    have hinner := completeWithin_refines room u (tt.marked t) hmarked
    have hhashed : (completeWithin room u (tt.marked t)).2.Hashed u := by
      refine hashed_of_sure hmarked hroom' (hsure.marked t) fun x hx => .inr ?_
      rw [Hashed, layout_marked]
      by_cases hxt : x = t
      · subst hxt
        exact hf.hashed_named hs
      · rw [info_marked_of_ne hxt, hrest x] at hx
        cases hx
    have hu' : ((completeWithin room u (tt.marked t)).2.layout u).isComplete = true := by
      refine complete_of_hashed hinner.faithful hhashed
        (hlast.imp (fun hfinished => hinner.complete ?_) fun hbuilt => ?_)
      · rw [layout_marked]
        exact hfinished
      · rw [hinner.shape_eq, (relaid_marked tt t).shape_eq]
        exact hbuilt
    have hl : (computeLayout (completeWithin room) t (tt.marked t)).1 = _ :=
      congrArg Prod.fst (computeLayout_bound (((relaid_marked tt t).shape_eq t).trans hs))
    have hlayout := completeWithin_layout hf hsettled ht hl
    show ((completeWithin tt.types.size t tt).2.layout t).isComplete = true
    rw [hsize, hlayout, isComplete_withHash]
    exact hu'
  · have hself : t = u := by
      cases hs : tt.shape t with
      | named pkgPath name bound ms =>
          rw [underlying?, hs] at hu
          dsimp only at hu
          subst hu
          exact absurd ⟨pkgPath, name, ms, hs⟩ hdeclared
      | _ => exact Option.some.inj ((underlying?_of_built (by rw [hs]; rfl)).symm.trans hu)
    subst hself
    refine complete_of_hashed hrefines.faithful (hashed_of_sure hf hroom hsure (hfree t))
      (hlast.imp hrefines.complete ?_)
    rw [hrefines.shape_eq]
    exact id

/-! ### Validity -/

/-- What is not found to be invalid stands for something valid, if for anything. -/
theorem valid_underlying (h : tt.Kinded) (hvalid : tt.isInvalid t = false) (hu : tt.underlying? t = some u) :
    tt.shape u ≠ .basic .invalid := by
  have hkind : tt.kindOf (tt.shape t) ≠ .invalid := by
    rw [← h.kind_eq_kindOf]
    simpa [isInvalid, hu] using hvalid
  intro hs
  refine hkind ?_
  cases hdeclared : (tt.shape t).isDeclared with
  | false =>
      cases (underlying?_of_built hdeclared).symm.trans hu
      rw [hs]
      rfl
  | true =>
      rw [underlying?] at hu
      split at hu
      · next hs' =>
          subst hu
          rw [hs', kindOf, hs]
          rfl
      · cases hu
        rw [hs] at hdeclared
        cases hdeclared

theorem valid_of_not_isInvalid (h : tt.Kinded) (hvalid : tt.isInvalid t = false) : tt.shape t ≠ .basic .invalid := by
  intro hs
  exact valid_underlying h hvalid (underlying?_of_built (by rw [hs]; rfl)) hs

/-! ### Tidy tables -/

/-- Nothing is being completed, nothing is built from the invalid type, and all arrays are finished. -/
structure Tidy (tt : TypeTable) : Prop extends tt.Faithful where
  atRest : tt.AtRest
  valid : ∀ t, ∀ part ∈ (tt.shape t).components, tt.shape part ≠ .basic .invalid
  arrays : ∀ {t e n}, tt.shape t = .array e n → (tt.layout t).isComplete = true

/-- A table stays tidy if a type of another shape than before is in order. -/
theorem Tidy.advances (h : tt.Tidy) (hadvances : Advances tt tt')
    (hnew : ∀ t, tt'.shape t = tt.shape t ∨
      (∀ part ∈ (tt'.shape t).components, tt.shape part ≠ .basic .invalid) ∧
        ∀ e n, tt'.shape t = .array e n → (tt'.layout t).isComplete = true) : tt'.Tidy where
  toFaithful := hadvances.faithful
  atRest := hadvances.atRest h.atRest
  valid t part hpart := by
    refine hadvances.toExtends.valid ?_
    obtain hs | ⟨hvalid, -⟩ := hnew t
    · rw [hs] at hpart
      exact h.valid t part hpart
    · exact hvalid part hpart
  arrays {t e n} hs := by
    obtain hs' | ⟨-, harray⟩ := hnew t
    · have hcomplete := h.arrays (hs'.symm.trans hs)
      rw [hadvances.frozen hcomplete]
      exact hcomplete
    · exact harray e n hs

/-- Changes to declared types leave a table tidy. -/
theorem Tidy.redeclares (h : tt.Tidy) (hadvances : Advances tt tt')
    (hnew : ∀ t, tt'.shape t = tt.shape t ∨ (tt'.shape t).isDeclared = true) : tt'.Tidy := by
  refine h.advances hadvances fun t => (hnew t).imp_right fun hdeclared => ⟨fun part hpart => ?_, fun e n hs => ?_⟩
  · rw [components_of_declared hdeclared] at hpart
    cases hpart
  · rw [hs] at hdeclared
    cases hdeclared

theorem Tidy.newNamed (h : tt.Tidy) (pkgPath name : String) : (newNamed pkgPath name tt).2.Tidy := by
  refine h.redeclares (h.toFaithful.newNamed pkgPath name) fun t => ?_
  obtain ⟨-, hs⟩ | hs := shape_pushed_cases tt (.named pkgPath name none []) {} t
  · exact .inr (congrArg Shape.isDeclared hs)
  · exact .inl hs

theorem Tidy.setUnderlying {meaning : TypeId} (h : tt.Tidy) (hm : tt.Knows meaning) :
    (setUnderlying t meaning tt).2.Tidy := by
  refine h.redeclares (h.toFaithful.setUnderlying hm) fun x => ?_
  obtain ⟨fault, hrun⟩ | ⟨pkgPath, name, ms, u, -, -, hrun⟩ := setUnderlying_cases t meaning tt
  · rw [hrun]
    exact .inl rfl
  · rw [hrun, shape_update]
    split
    · exact .inr rfl
    · exact .inl rfl

theorem Tidy.addMethod (h : tt.Tidy) (m : Method) : (addMethod t m tt).2.Tidy := by
  refine h.redeclares (h.toFaithful.addMethod m) fun x => ?_
  obtain ⟨outcome, hrun⟩ | ⟨pkgPath, name, bound, ms, -, hrun⟩ := addMethod_cases t m tt
  · rw [hrun]
    exact .inl rfl
  · rw [hrun, shape_update]
    split
    · exact .inr rfl
    · exact .inl rfl

/-- Adding a method does not change what types stand for. -/
theorem underlying?_addMethod (t : TypeId) (m : Method) (tt : TypeTable) (u : TypeId) :
    (TypeTable.addMethod t m tt).2.underlying? u = tt.underlying? u := by
  obtain ⟨outcome, hrun⟩ | ⟨pkgPath, name, bound, ms, hs, hrun⟩ := addMethod_cases t m tt
  · rw [hrun]
  · rw [hrun, underlying?, underlying?, shape_update]
    by_cases h : u = t ∧ tt.Knows t
    · rw [if_pos h, h.1, hs]
    · rw [if_neg h]

theorem Tidy.complete (h : tt.Tidy) (t : TypeId) : (complete t tt).2.Tidy := by
  have hrefines : Refines tt (TypeTable.complete t tt).2 := refining_complete t tt h.toFaithful
  exact h.redeclares (hrefines.advances h.toSound) fun x => .inl (hrefines.shape_eq x)

/-- A type is ready if it stands for something valid and all declared types that this mentions have a meaning. -/
theorem Tidy.ready (h : tt.Tidy) (hu : tt.underlying? t = some u) (hbuilt : (tt.shape u).isDeclared = false)
    (hvalid : tt.shape u ≠ .basic .invalid)
    (hbound : ∀ c, tt.Mentions u c → (tt.underlying? c).isSome = true) : tt.Ready t := by
  have hsure : tt.Sure u := by
    clear hu hbuilt
    induction hi : u.index using Nat.strongRecOn generalizing u with
    | _ i ih =>
        subst hi
        cases hs : tt.shape u with
        | named pkgPath name bound ms =>
            have hsome := hbound u (.self (by rw [hs]; rfl))
            rw [underlying?, hs] at hsome
            obtain ⟨v, hv⟩ := Option.isSome_iff_exists.1 hsome
            dsimp only at hv
            subst hv
            exact .bound hs
        | array e n => exact .finished (h.arrays hs)
        | _ =>
            refine .built (by rw [hs]; rfl) hvalid (by rw [hs]; simp) fun part hpart => ?_
            refine ih part.index (h.ordered u part hpart) (h.valid u part hpart) (fun c hc => ?_) rfl
            exact hbound c (.part hpart hc)
  refine ⟨u, hu, hsure, ?_⟩
  cases hs : tt.shape u with
  | named =>
      rw [hs] at hbuilt
      cases hbuilt
  | array e n => exact .inl (h.arrays hs)
  | _ => exact .inr ⟨rfl, rfl⟩

/-- Building a type that is no array. -/
theorem Tidy.intern (h : tt.Tidy) (hbuilt : s.isDeclared = false) (hknown : ∀ part ∈ s.components, tt.Knows part)
    (hvalid : ∀ part ∈ s.components, tt.shape part ≠ .basic .invalid) (harray : ∀ e n, s ≠ .array e n) :
    (intern s tt).2.Tidy := by
  refine h.advances (h.toFaithful.intern hbuilt hknown) fun t => (shape_intern_cases s tt t).imp_right fun hs => ?_
  rw [hs]
  exact ⟨hvalid, fun e n heq => absurd heq (harray e n)⟩

/-- Building an array of elements that are ready. -/
theorem Tidy.newArray (h : tt.Tidy) (he : tt.Knows e) (hvalid : tt.shape e ≠ .basic .invalid) (hready : tt.Ready e)
    (n : Nat) : (newArray e n tt).2.Tidy := by
  have hknown : ∀ part ∈ (Shape.array e n).components, tt.Knows part := by
    simpa [Shape.components] using he
  refine h.advances (h.toFaithful.intern (s := .array e n) rfl hknown) fun t => ?_
  cases hfind : tt.find? (.array e n) with
  | some t' =>
      rw [TypeTable.newArray, intern_found hfind]
      exact .inl rfl
  | none =>
      obtain ⟨outcome, tt', hlayout, hrelaid, ⟨fault, -, hrun⟩ | ⟨l, rfl, hrun⟩⟩ := intern_unfound hfind
      · rw [TypeTable.newArray, hrun]
        exact .inl (hrelaid.shape_eq t)
      · rw [TypeTable.newArray, hrun]
        obtain ⟨hlast, hs⟩ | hs := shape_pushed_cases tt' (.array e n) l t
        · refine .inr ⟨?_, fun e' n' _ => ?_⟩
          · rw [hs]
            simpa [Shape.components] using hvalid
          · have hn : n ≤ tt.target.maxSize := by
              by_contra hn
              rw [Shape.layout, if_pos (Nat.not_le.1 hn)] at hlayout
              cases congrArg Prod.fst hlayout
            have hlaid : (Shape.array e n).layout tt.target (ask TypeTable.complete) tt = (.ok l, tt') := hlayout
            rw [layout_array hn] at hlaid
            obtain ⟨-, hl⟩ := array_eq_ok.1 (congrArg Prod.fst hlaid)
            rw [layout, info_pushed, if_pos hlast, hl]
            exact hready.completed h.toFaithful h.atRest he
        · exact .inl (hs.trans (hrelaid.shape_eq t))

end GoSource.TypeTable
