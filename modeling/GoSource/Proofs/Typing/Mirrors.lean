import GoSource.Proofs.Typing.Founded
import GoSource.Proofs.Typing.Renaming
import Mathlib.Logic.Function.Basic

/-!
# Building types under other handles

A table with a past holds types that were made long ago.  Where a new table makes a type, it may be there already, and
then it is complete: it is built from predeclared types and `error` only.  So the same operations on both tables make
the same types.

* **`Mirrors start base f small big`**: the types of `small` are in `big` under the handles that `f` gives them.  The
  types of `big` from `start` on are all among these; those before are founded on the types in `base`.
* **`Mirrors.intern`**: a shape is interned in both tables, and if it was in `big` only, it is in both then.
* **`Mirrors.newNamed`**, **`Mirrors.setUnderlying`**, **`Mirrors.addMethod`**, **`Mirrors.complete`**: declared types,
  and completion.
-/

namespace GoSource.TypeTable

variable {tt tt' small big small' big' : TypeTable} {f : TypeId → TypeId} {s : Shape} {l : Layout} {t u : TypeId}
  {start : Nat} {base : TypeId → Prop}

/-- The types of `small` are in `big` under the handles that `f` gives them. -/
structure Mirrors (start : Nat) (base : TypeId → Prop) (f : TypeId → TypeId) (small big : TypeTable) : Prop
    extends Tracks f small big where
  atRest : small.AtRest
  atRest' : big.AtRest
  blank : small.Knows invalid ∧ small.shape invalid = .basic .invalid
  blank' : big.Knows invalid ∧ big.shape invalid = .basic .invalid
  /-- The last parameter of a variadic function is a slice, and no declared type that stands for one. -/
  variadic : ∀ {t ps rs}, small.Knows t → small.shape t = .func ps rs true →
    ∃ p elem, ps.getLast? = some p ∧ small.shape p = .slice elem
  /-- From `start` on, nothing was made for other ends. -/
  started : start ≤ big.types.size
  covered : ∀ {a : TypeId}, big.Knows a → start ≤ a.index → ∃ t, small.Knows t ∧ f t = a
  /-- What was there before is built from predeclared types and those in `base`. -/
  founded : ∀ {t}, small.Knows t → t ≠ invalid → (f t).index < start → big.Founded base (f t)
  firm : big.Firm base

/-- A type that corresponds to a primed one is primed itself. -/
theorem Tracks.primed (h : Tracks f small big) (ht : small.Knows t) (hprimed : big.Primed (f t)) : small.Primed t := by
  obtain ⟨pkgPath, name, u', ms', hs', hu', hmark⟩ := hprimed
  have hbound {u : TypeId} {ms : List Method} (hs : small.shape t = .named pkgPath name (some u) ms) (hu : f u = u') :
      small.Primed t := by
    refine ⟨pkgPath, name, u, ms, hs, ?_, ?_⟩
    · rw [← h.even_of_built (h.faithful.meant hs) (h.faithful.bound hs), hu, hu']
    · rw [← h.marks ht, hmark]
  cases h.echoes ht with
  | same hsame =>
      rw [hs'] at hsame
      cases hs : small.shape t with
      | named p n bound ms =>
          rw [hs] at hsame
          cases bound with
          | none => cases hsame
          | some u =>
              cases hsame
              exact hbound hs rfl
      | _ =>
          rw [hs] at hsame
          cases hsame
  | interface hs hsame =>
      cases hs'.symm.trans hsame
      exact hbound hs rfl

/-- Taking back what was found out about primed types does no harm. -/
theorem Tracks.withdraw (h : Tracks f small big') (hrefines : Refines big big') (hfaithful : big.Faithful)
    (hsame : ∀ x, big'.layout x = big.layout x ∨ big.Primed x) : Tracks f small big := by
  have hprimed {x : TypeId} (hx : big'.Primed x) : big.Primed x := by
    obtain ⟨pkgPath, name, u, ms, hs, hu, hmark⟩ := hx
    rw [hrefines.shape_eq] at hs
    refine ⟨pkgPath, name, u, ms, hs, ?_, (hrefines.completing_eq _).symm.trans hmark⟩
    rcases hsame u with heq | ⟨_, _, _, _, hnamed, -⟩
    · rw [← heq, hu]
    · have hbuilt := hfaithful.bound hs
      rw [hnamed] at hbuilt
      cases hbuilt
  exact {
    faithful := h.faithful
    faithful' := hfaithful
    target_eq := by rw [← hrefines.target_eq, h.target_eq]
    knows := fun ht => by
      rw [Knows, ← hrefines.size_eq]
      exact h.knows ht
    injective := h.injective
    handles := h.handles
    echoes := fun ht => by
      cases h.echoes ht with
      | same hs =>
          apply Echoes.same
          rw [← hs, hrefines.shape_eq]
      | interface hs hs' hbound => exact .interface hs ((hrefines.shape_eq _).symm.trans hs') hbound
    marks := fun ht => by rw [← hrefines.completing_eq, h.marks ht]
    paced := fun {t} ht => by
      rcases hsame (f t) with heq | hnow
      · exact (h.paced ht).imp heq.symm.trans (And.imp_right hprimed)
      · exact .inr ⟨h.primed ht (hnow.refines hrefines), hnow⟩ }

/-- Completing a founded type changes nothing, but for a type that is primed. -/
theorem Firm.calm (h : tt.Firm base) (hf : tt.Faithful) (hrest : tt.AtRest) (ht : tt.Knows t)
    (hfounded : tt.Founded base t) (x : TypeId) : (TypeTable.complete t tt).2.layout x = tt.layout x ∨ tt.Primed x := by
  by_cases hbase : base t
  · obtain ⟨pkgPath, name, u, ms, hs, hu⟩ := h.bound hbase
    obtain ⟨room, hroom⟩ := Nat.exists_eq_succ_of_ne_zero (Nat.ne_of_gt (Nat.zero_lt_of_lt ht))
    have hrun : TypeTable.complete t tt = completeWithin (room + 1) t tt := congrArg (completeWithin · t tt) hroom
    by_cases hxt : x = t
    · exact .inr ⟨pkgPath, name, u, ms, hxt ▸ hs, hu, hrest x⟩
    · apply Or.inl
      rw [hrun, layout, (hf.completeWithin_primed hs hu (hrest t) room).2 x hxt, layout]
  · have hsettled : tt.isSettled t = true := by rw [isSettled, h.complete hfounded hbase, Bool.true_or]
    apply Or.inl
    show (completeWithin tt.types.size t tt).2.layout x = tt.layout x
    rw [completeWithin_of_settled hsettled]

namespace Mirrors

/-- The invalid type has the same place in both tables, and so have the predeclared ones. -/
theorem invalid_eq (h : Mirrors start base f small big) : f invalid = invalid := by
  have hs : big.shape (f invalid) = .basic .invalid := by
    rw [(h.echoes h.blank.1).of_built (by rw [h.blank.2]; rfl), h.blank.2]
    rfl
  exact h.faithful'.unique (h.knows h.blank.1) h.blank'.1 (by rw [hs]; rfl) (hs.trans h.blank'.2.symm)

theorem basic_eq (h : Mirrors start base f small big) (k : Kind) :
    small.Knows (basic k) ∧ f (basic k) = basic k := by
  by_cases hk : k.isBasic = true
  · have hvalid : Shape.basic k ≠ .basic .invalid := by
      intro heq
      cases heq
      cases hk
    have hsmall := h.faithful.basics k hk
    have hbig := h.faithful'.basics k hk
    have hknows : small.Knows (basic k) := knows_of_shape_ne (by rw [hsmall]; exact hvalid)
    have hknows' : big.Knows (basic k) := knows_of_shape_ne (by rw [hbig]; exact hvalid)
    have hs : big.shape (f (basic k)) = .basic k := by
      rw [(h.echoes hknows).of_built (by rw [hsmall]; rfl), hsmall]
      rfl
    exact ⟨hknows, h.faithful'.unique (h.knows hknows) hknows' (by rw [hs]; rfl) (hs.trans hbig.symm)⟩
  · rw [basic, if_neg hk]
    exact ⟨h.blank.1, h.invalid_eq⟩

/-- What refines both tables, and lets them track each other, lets one mirror the other. -/
theorem of_refines (h : Mirrors start base f small big) (htracks : Tracks f small' big') (hsmall : Refines small small')
    (hbig : Refines big big') : Mirrors start base f small' big' := by
  have hknows {t : TypeId} (ht : small'.Knows t) : small.Knows t := by
    rw [Knows, ← hsmall.size_eq]
    exact ht
  have hknows' {t : TypeId} (ht : big'.Knows t) : big.Knows t := by
    rw [Knows, ← hbig.size_eq]
    exact ht
  exact {
    toTracks := htracks
    atRest := fun t => (hsmall.completing_eq t).trans (h.atRest t)
    atRest' := fun t => (hbig.completing_eq t).trans (h.atRest' t)
    blank := ⟨hsmall.extends.knows h.blank.1, (hsmall.shape_eq _).trans h.blank.2⟩
    blank' := ⟨hbig.extends.knows h.blank'.1, (hbig.shape_eq _).trans h.blank'.2⟩
    variadic := fun {t _ _} ht hs => by
      obtain ⟨p, elem, hp, hps⟩ := h.variadic (hknows ht) ((hsmall.shape_eq t).symm.trans hs)
      exact ⟨p, elem, hp, (hsmall.shape_eq p).trans hps⟩
    started := hbig.size_eq ▸ h.started
    covered := fun ha hstart => by
      obtain ⟨t, ht, hta⟩ := h.covered (hknows' ha) hstart
      exact ⟨t, hsmall.extends.knows ht, hta⟩
    founded := fun ht hne hlt => (h.founded (hknows ht) hne hlt).extends hbig.extends
    firm := h.firm.advances h.faithful'.toSound (hbig.advances h.faithful'.toSound) fun _ ht hnew =>
      absurd (hknows' ht) hnew }

/-! ### New types -/

/-- What holds but for one type of each table, and for these two, holds of all. -/
theorem frame (h : Mirrors start base f small big) {g : TypeId → TypeId} {a : TypeId} (htracks : Tracks g small' big')
    (hsmall : Frame t small small') (hsame : ∀ {x}, small.Knows x → g x = f x) (hbig : Frame a big big')
    (hself : g t = a) (hrest : small'.AtRest) (hrest' : big'.AtRest)
    (hvariadic : ∀ {ps rs}, small'.shape t = .func ps rs true →
      ∃ p elem, ps.getLast? = some p ∧ small'.shape p = .slice elem)
    (hfounded : t ≠ invalid → a.index < start → big'.Founded base a) (hfirm : big'.Firm base) :
    Mirrors start base g small' big' where
  toTracks := htracks
  atRest := hrest
  atRest' := hrest'
  blank := ⟨hsmall.knows h.blank.1, (hsmall.shape_eq h.blank.1 (by rw [h.blank.2]; rfl)).trans h.blank.2⟩
  blank' := ⟨hbig.knows h.blank'.1, (hbig.shape_eq h.blank'.1 (by rw [h.blank'.2]; rfl)).trans h.blank'.2⟩
  variadic := by
    intro x ps rs hx hs
    rcases hsmall.cases hx with rfl | ⟨hx, hxt⟩
    · exact hvariadic hs
    · rw [hsmall.shape_of_ne hx hxt] at hs
      obtain ⟨p, elem, hp, hps⟩ := h.variadic hx hs
      exact ⟨p, elem, hp, hsmall.shape_of_built hps rfl (by simp)⟩
  started := Nat.le_trans h.started hbig.size_le
  covered := by
    intro x hx hstart
    rcases hbig.known hx with rfl | hx
    · exact ⟨t, hsmall.self, hself⟩
    · obtain ⟨y, hy, rfl⟩ := h.covered hx hstart
      exact ⟨y, hsmall.knows hy, hsame hy⟩
  founded := by
    intro x hx hvalid hlt
    rcases hsmall.cases hx with rfl | ⟨hx, -⟩
    · rw [hself] at hlt ⊢
      exact hfounded hvalid hlt
    · rw [hsame hx] at hlt ⊢
      exact (h.founded hx hvalid hlt).extends hbig.toExtends
  firm := hfirm

/-- A type is made in `small`, and has the handle `a` in `big`, be it new there or not. -/
theorem pushed (h : Mirrors start base f small big) {a : TypeId} (hsmall : Advances small (small.pushed s l))
    (hbig : Frame a big big') (hrest' : big'.AtRest) (hnew : ∀ t, small.Knows t → f t ≠ a)
    (hs : big'.shape a = s.renamed f) (hl : big'.layout a = l) (hknown : ∀ x ∈ s.handles, small.Knows x)
    (hvariadic : ∀ ps rs, s = .func ps rs true → ∃ p elem, ps.getLast? = some p ∧ small.shape p = .slice elem)
    (hfounded : a.index < start → big'.Founded base a) (hfirm : big'.Firm base) :
    Mirrors start base (Function.update f ⟨small.types.size⟩ a) (small.pushed s l) big' := by
  let last : TypeId := ⟨small.types.size⟩
  have hinfo : (small.pushed s l).info last =
      { shape := s, short := small.spellShape small.short false s, layout := l } := by
    rw [info_pushed, if_pos rfl]
  have hshape : (small.pushed s l).shape last = s := by rw [shape, hinfo]
  have hlast : Function.update f last a last = a := Function.update_self last a f
  have hsame {x : TypeId} (hx : small.Knows x) : Function.update f last a x = f x := by
    refine Function.update_of_ne ?_ a f
    rintro rfl
    exact Nat.lt_irrefl _ hx
  have hechoes : Echoes (Function.update f last a) (small.pushed s l) big' last := by
    apply Echoes.same
    rw [hlast, hshape, hs]
    exact (Shape.renamed_congr fun x hx => hsame (hknown x hx)).symm
  have hmarks : (big'.info a).completing = ((small.pushed s l).info last).completing := by
    rw [hinfo]
    exact hrest' a
  have heven : Even (Function.update f last a) (small.pushed s l) big' last := by
    rw [Even, hlast, hl, layout, hinfo]
  have hhandles : ∀ u ∈ ((small.pushed s l).shape last).handles, (small.pushed s l).Knows u := by
    rw [hshape]
    exact fun u hu => hsmall.knows (hknown u hu)
  have htracks := h.toTracks.frame hsmall.frame_pushed hsame hbig (fun hx _ => hnew _ hx) hlast hhandles hechoes hmarks
    (.inl heven)
  refine h.frame htracks hsmall.frame_pushed hsame hbig hlast (hsmall.atRest h.atRest) hrest' (fun {ps rs} hfunc => ?_)
    (fun _ => hfounded) hfirm
  obtain ⟨p, elem, hp, hps⟩ := hvariadic ps rs (hshape.symm.trans hfunc)
  exact ⟨p, elem, hp, hsmall.shape_of_built hps rfl (by simp)⟩

/-- A type is made in both tables. -/
theorem grown (h : Mirrors start base f small big) (hsmall : Advances small (small.pushed s l))
    (hbig : Advances big (big.pushed (s.renamed f) l)) (hknown : ∀ x ∈ s.handles, small.Knows x)
    (hvariadic : ∀ ps rs, s = .func ps rs true → ∃ p elem, ps.getLast? = some p ∧ small.shape p = .slice elem)
    (hfirm : (big.pushed (s.renamed f) l).Firm base) :
    Mirrors start base (Function.update f ⟨small.types.size⟩ ⟨big.types.size⟩) (small.pushed s l)
      (big.pushed (s.renamed f) l) := by
  have hself : (big.pushed (s.renamed f) l).info ⟨big.types.size⟩ =
      { shape := s.renamed f, short := big.spellShape big.short false (s.renamed f), layout := l } := by
    rw [info_pushed, if_pos rfl]
  have hnew (t : TypeId) (ht : small.Knows t) : f t ≠ ⟨big.types.size⟩ := by
    intro heq
    have hlt := h.knows ht
    rw [heq] at hlt
    exact Nat.lt_irrefl _ hlt
  have hlate : ¬big.types.size < start := Nat.not_lt.2 h.started
  exact h.pushed hsmall hbig.frame_pushed (hbig.atRest h.atRest') hnew (by rw [shape, hself]) (by rw [layout, hself])
    hknown hvariadic (fun hlt => absurd hlt hlate) hfirm

/-- Corresponding shapes are laid out alike. -/
theorem laid_out (h : Mirrors start base f small big) (hknown : ∀ part ∈ s.components, small.Knows part) :
    (((s.renamed f).layout big.target fun part => completed part) big).1 =
        ((s.layout small.target fun part => completed part) small).1 ∧
      Mirrors start base f ((s.layout small.target fun part => completed part) small).2
        (((s.renamed f).layout big.target fun part => completed part) big).2 := by
  have htwins := twins_layout (s := s) (fun part hpart => Tracks.completed (f := f) (hknown part hpart)) small.target
    small big ⟨h.toTracks, .refl h.faithful, .refl h.faithful'⟩
  rw [h.target_eq]
  exact ⟨htwins.1, h.of_refines htwins.2.1 htwins.2.2.1 htwins.2.2.2⟩

theorem known_renamed (h : Mirrors start base f small big) (hknown : ∀ part ∈ s.components, small.Knows part) :
    ∀ part ∈ (s.renamed f).components, big.Knows part := by
  rw [Shape.components_renamed]
  intro part hpart
  obtain ⟨p, hp, rfl⟩ := List.mem_map.1 hpart
  exact h.knows (hknown p hp)

/-- Asking about founded types leaves the larger table as it is, but for types that are primed.  So the smaller table
tracks it as it was before. -/
theorem still (h : Mirrors start base f small big) (hknown : ∀ part ∈ s.components, small.Knows part)
    (hfounded : ∀ part ∈ s.components, big.Founded base (f part)) :
    Tracks f ((s.layout small.target fun part => completed part) small).2 big := by
  let Still (small' big' : TypeTable) : Prop := big' = big ∧ Tracks f small' big ∧ Refines small small'
  let look (t : TypeId) : TableM Layout := fun tt => ((completed t tt).1, tt)
  have htwins : Twins Still (s.layout small.target fun part => completed part).run
      ((s.renamed f).layout small.target fun part => look part).run := by
    refine twins_layout (fun part hpart => ?_) small.target
    rintro small' _ ⟨rfl, htracks, hrefines⟩
    have hroom (tt : TypeTable) : tt.unmarked.card ≤ tt.types.size :=
      (Finset.card_filter_le _ _).trans (Finset.card_range _).le
    obtain ⟨htracks', heven⟩ := htracks.completeWithin (hrefines.extends.knows (hknown part hpart)) (hroom small')
      (hroom _)
    refine ⟨heven, rfl, ?_, hrefines.trans (refining_complete part small' htracks.faithful)⟩
    refine htracks'.withdraw (refining_complete (f part) _ h.faithful') h.faithful' ?_
    exact h.firm.calm h.faithful' h.atRest' (h.knows (hknown part hpart)) (hfounded part hpart)
  exact (htwins small big ⟨rfl, h.toTracks, .refl h.faithful⟩).2.2.1

/-- A type that is interned in both tables, where it is in neither. -/
theorem intern_new (h : Mirrors start base f small big) (hbuilt : s.isDeclared = false)
    (hknown : ∀ part ∈ s.components, small.Knows part)
    (hvariadic : ∀ ps rs, s = .func ps rs true → ∃ p elem, ps.getLast? = some p ∧ small.shape p = .slice elem)
    (hfind : small.find? s = none) (hfind' : big.find? (s.renamed f) = none) :
    (∃ fault, (intern s small).1 = .error fault ∧ (intern (s.renamed f) big).1 = .error fault ∧
      Mirrors start base f (intern s small).2 (intern (s.renamed f) big).2) ∨
    ∃ a, (intern s small).1 = .ok ⟨small.types.size⟩ ∧ (intern (s.renamed f) big).1 = .ok a ∧
      Mirrors start base (Function.update f ⟨small.types.size⟩ a) (intern s small).2 (intern (s.renamed f) big).2 := by
  have hbuilt' : (s.renamed f).isDeclared = false := by rw [Shape.isDeclared_renamed, hbuilt]
  have hknown' := h.known_renamed hknown
  obtain ⟨hsame, hmirrors⟩ := h.laid_out hknown
  obtain ⟨outcome, small₁, hlayout, hrefines, hcases⟩ := h.faithful.intern_unfound hfind hbuilt hknown
  obtain ⟨outcome', big₁, hlayout', hrefines', hcases'⟩ := h.faithful'.intern_unfound hfind' hbuilt' hknown'
  rw [hlayout, hlayout'] at hsame hmirrors
  cases hsame
  obtain ⟨fault, rfl, hrun⟩ | ⟨l, rfl, hrun, hpushed⟩ := hcases
  · obtain ⟨fault', heq, hrun'⟩ | ⟨l, heq, -⟩ := hcases'
    · cases heq
      rw [hrun, hrun']
      exact .inl ⟨fault, rfl, rfl, hmirrors⟩
    · cases heq
  · obtain ⟨fault', heq, -⟩ | ⟨l', heq, hrun', hpushed'⟩ := hcases'
    · cases heq
    · cases heq
      have hfirm := h.firm.intern h.faithful' h.atRest' hbuilt' hknown'
      rw [hrun'] at hfirm
      rw [hrun, hrun', ← hrefines.size_eq]
      refine .inr ⟨⟨big₁.types.size⟩, rfl, rfl,
        hmirrors.grown hpushed hpushed' ?handles (fun ps rs hs => ?variadic) hfirm⟩
      case handles =>
        rw [Shape.handles_of_built hbuilt]
        exact fun part hpart => hrefines.extends.knows (hknown part hpart)
      case variadic =>
        obtain ⟨p, elem, hp, hps⟩ := hvariadic ps rs hs
        exact ⟨p, elem, hp, (hrefines.shape_eq p).trans hps⟩

/-- A type that is built from types in the smaller table, and is in the larger one only, was there before. -/
theorem spare (h : Mirrors start base f small big) (hbuilt : s.isDeclared = false)
    (hknown : ∀ part ∈ s.components, small.Knows part) (hfind : small.find? s = none) {a : TypeId}
    (hs : big.shape a = s.renamed f) (ha : big.Knows a) :
    a.index < start ∧ ∀ t, small.Knows t → f t ≠ a := by
  have hnew (t : TypeId) (ht : small.Knows t) (heq : f t = a) : False := by
    subst heq
    have hdeclared : (small.shape t).isDeclared = false := by
      cases h.echoes ht with
      | same hsame => rw [← Shape.isDeclared_renamed (f := f), ← hsame, hs, Shape.isDeclared_renamed, hbuilt]
      | interface _ hs' =>
          rw [hs'] at hs
          have hnamed := congrArg Shape.isDeclared hs
          rw [Shape.isDeclared_renamed, hbuilt] at hnamed
          cases hnamed
    refine shape_ne_of_find? hfind ht (Shape.renamed_inj (f := f) hdeclared (fun p hp q hq => ?_) ?_)
    · exact h.injective (h.part_known ht hp) (hknown q hq)
    · rw [← (h.echoes ht).of_built hdeclared, hs]
  refine ⟨?_, hnew⟩
  by_contra hstart
  obtain ⟨t, ht, heq⟩ := h.covered ha (Nat.not_lt.1 hstart)
  exact hnew t ht heq

/-- Where the larger table has the type already, the smaller one makes it anew. -/
theorem intern_spare (h : Mirrors start base f small big) (hbuilt : s.isDeclared = false) (hvalid : s ≠ .basic .invalid)
    (hknown : ∀ part ∈ s.components, small.Knows part) (hparts : invalid ∉ s.components)
    (hvariadic : ∀ ps rs, s = .func ps rs true → ∃ p elem, ps.getLast? = some p ∧ small.shape p = .slice elem)
    (hfind : small.find? s = none) {a : TypeId} (hfind' : big.find? (s.renamed f) = some a) :
    (intern s small).1 = .ok ⟨small.types.size⟩ ∧
      Mirrors start base (Function.update f ⟨small.types.size⟩ a) (intern s small).2 big := by
  obtain ⟨ha, hs⟩ := knows_of_find? hfind'
  obtain ⟨hstart, hnew⟩ := h.spare hbuilt hknown hfind hs ha
  have hbuilt' : (big.shape a).isDeclared = false := by rw [hs, Shape.isDeclared_renamed, hbuilt]
  have hvalid' : big.shape a ≠ .basic .invalid := by
    rw [hs]
    intro heq
    cases s with
    | basic => exact hvalid heq
    | _ => cases heq
  -- What the type is built from was there before it, and so the type has long been complete.
  have hfounded (part : TypeId) (hpart : part ∈ s.components) : big.Founded base (f part) := by
    refine h.founded (hknown part hpart) (fun heq => hparts (heq ▸ hpart)) ?_
    refine Nat.lt_trans (h.faithful'.ordered a _ ?_) hstart
    rw [hs, Shape.components_renamed]
    exact List.mem_map_of_mem hpart
  have hfounded' : ∀ part ∈ (big.shape a).components, big.Founded base part := by
    rw [hs, Shape.components_renamed]
    intro part hpart
    obtain ⟨p, hp, rfl⟩ := List.mem_map.1 hpart
    exact hfounded p hp
  have hself : big.Founded base a := .built hbuilt' hvalid' hfounded'
  have hbase : ¬base a := by
    intro hbase
    obtain ⟨pkgPath, name, u, ms, hnamed, -⟩ := h.firm.bound hbase
    rw [hnamed] at hbuilt'
    cases hbuilt'
  have hcomplete := h.firm.complete hself hbase
  obtain ⟨big₁, hagain⟩ := h.firm.layout_again h.faithful' h.atRest' ha hbuilt' hvalid' hfounded' hcomplete
  obtain ⟨hsame, -⟩ := h.laid_out hknown
  obtain ⟨outcome, small₁, hlayout, hrefines, hcases⟩ := h.faithful.intern_unfound hfind hbuilt hknown
  rw [← hs, hagain, hlayout] at hsame
  cases hsame
  obtain ⟨fault, heq, -⟩ | ⟨l, heq, hrun, hpushed⟩ := hcases
  · cases heq
  · cases heq
    have hmirrors : Mirrors start base f small₁ big := by
      have htracks := h.still hknown hfounded
      rw [hlayout] at htracks
      exact h.of_refines htracks hrefines (.refl h.faithful')
    rw [hrun, ← hrefines.size_eq]
    refine ⟨rfl, hmirrors.pushed hpushed (h.faithful'.frame ha) h.atRest' (fun t ht => ?new) hs rfl ?handles
      (fun ps rs hfunc => ?variadic) (fun _ => hself) h.firm⟩
    case new =>
      refine hnew t ?_
      rw [Knows, ← hrefines.size_eq]
      exact ht
    case handles =>
      rw [Shape.handles_of_built hbuilt]
      exact fun part hpart => hrefines.extends.knows (hknown part hpart)
    case variadic =>
      obtain ⟨p, elem, hp, hps⟩ := hvariadic ps rs hfunc
      exact ⟨p, elem, hp, (hrefines.shape_eq p).trans hps⟩

/-! ### Declared types -/

/-- A declared type is made in both tables. -/
theorem newNamed (h : Mirrors start base f small big) (pkgPath name : String) :
    Mirrors start base (Function.update f ⟨small.types.size⟩ ⟨big.types.size⟩)
      (TypeTable.newNamed pkgPath name small).2 (TypeTable.newNamed pkgPath name big).2 := by
  refine h.grown (h.faithful.newNamed pkgPath name) (h.faithful'.newNamed pkgPath name) ?_ ?_ ?_
  · intro x hx
    cases hx
  · intro ps rs hs
    cases hs
  · exact h.firm.step h.faithful' h.atRest' (.named pkgPath name)

/-- What is recorded about a declared type changes in the same way in both tables. -/
theorem redeclare (h : Mirrors start base f small big) {g g' : TypeInfo → TypeInfo} (ht : small.Knows t)
    (hsmall : Advances small (small.update t g)) (hbig : Advances big (big.update (f t) g'))
    (hshape : (g' (big.info (f t))).shape = (g (small.info t)).shape.renamed f)
    (hnamed : (g (small.info t)).shape.isDeclared = true)
    (hknown : ∀ x ∈ (g (small.info t)).shape.handles, small.Knows x)
    (hcompleting : (g (small.info t)).completing = false) (hcompleting' : (g' (big.info (f t))).completing = false)
    (hpaced : (g' (big.info (f t))).layout = (g (small.info t)).layout ∨
      (small.update t g).Primed t ∧ (big.update (f t) g').Primed (f t)) :
    Mirrors start base f (small.update t g) (big.update (f t) g') := by
  have hself : (small.update t g).info t = g (small.info t) := by rw [info_update, if_pos ⟨rfl, ht⟩]
  have hself' : (big.update (f t) g').info (f t) = g' (big.info (f t)) := by
    rw [info_update, if_pos ⟨rfl, h.knows ht⟩]
  have hframe : Frame t small (small.update t g) := hsmall.frame_update ht
  have hframe' : Frame (f t) big (big.update (f t) g') := hbig.frame_update (h.knows ht)
  have hechoes : Echoes f (small.update t g) (big.update (f t) g') t := by
    apply Echoes.same
    rw [shape, hself', shape, hself, hshape]
  have hhandles : ∀ u ∈ ((small.update t g).shape t).handles, (small.update t g).Knows u := by
    rw [shape, hself]
    exact fun u hu => hsmall.knows (hknown u hu)
  have hmarks : ((big.update (f t) g').info (f t)).completing = ((small.update t g).info t).completing := by
    rw [hself, hself', hcompleting, hcompleting']
  have hstep : Paced f (small.update t g) (big.update (f t) g') t := by
    refine hpaced.imp_left fun heq => ?_
    rw [Even, layout, hself', layout, hself, heq]
  have htracks := h.toTracks.frame hframe (fun _ => rfl) hframe' (h.apart ht) rfl hhandles hechoes hmarks hstep
  refine h.frame htracks hframe (fun _ => rfl) hframe' rfl (hsmall.atRest h.atRest) (hbig.atRest h.atRest')
    (fun hfunc => ?variadic) (fun hvalid hlt => (h.founded ht hvalid hlt).extends hbig.toExtends) ?firm
  case variadic =>
    rw [shape, hself] at hfunc
    rw [hfunc] at hnamed
    cases hnamed
  case firm =>
    refine h.firm.advances h.faithful'.toSound hbig fun x hx hnew => absurd ?_ hnew
    simpa [Knows, TypeTable.update] using hx

end Mirrors

end GoSource.TypeTable
