import GoSource.Proofs.Typing.Frozen
import Mathlib.Data.Finset.Card
import Mathlib.Logic.Relation

/-!
# When completion succeeds

In a table in which nothing stands in the way, every type can be completed, but not always at once.  A type that is
entered again while it is being completed gives no fingerprint yet, and what is built on it stays unfinished.

* **`Completable`**: nothing stands in the way.
* **`hashed_completeWithin`**: completing a type finds its fingerprint, unless that needs one of a marked type.
* **`prepared_completeWithin`**: after a first attempt, the arrays on the way have their fingerprints.
* **`complete_of_prepared`**: then an attempt succeeds.
* **`completed_twice`**: two attempts always suffice, and one for types that are not arrays;
  `completed_once_fails` is an array that needs two.
-/

namespace GoSource.TypeTable

variable {tt tt' : TypeTable} {s : Shape} {t u x : TypeId} {l : Layout} {room : Nat}

/-! ### Tables in which nothing stands in the way -/

/-- The type `t` contains `u` by value. -/
def Contains (tt : TypeTable) (t u : TypeId) : Prop :=
  u ∈ (tt.shape t).byValue

theorem contains_array {e : TypeId} {n : Nat} (hs : tt.shape t = .array e n) : tt.Contains t e := by
  rw [Contains, hs]
  exact List.mem_singleton_self e

theorem contains_named {pkgPath name : String} {ms : List Method} (hs : tt.shape t = .named pkgPath name (some u) ms) :
    tt.Contains t u := by
  rw [Contains, hs]
  exact List.mem_singleton_self u

/-- Only arrays and declared types contain others. -/
theorem contains_cases (hu : tt.Contains t u) :
    (∃ n, tt.shape t = .array u n) ∨ ∃ pkgPath name ms, tt.shape t = .named pkgPath name (some u) ms := by
  rw [Contains] at hu
  cases hs : tt.shape t with
  | array e n =>
      rw [hs, Shape.byValue, List.mem_singleton] at hu
      subst hu
      exact .inl ⟨n, rfl⟩
  | named pkgPath name bound ms =>
      rw [hs] at hu
      cases bound with
      | none => cases hu
      | some v =>
          rw [Shape.byValue, List.mem_singleton] at hu
          subst hu
          exact .inr ⟨pkgPath, name, ms, rfl⟩
  | _ =>
      rw [hs] at hu
      cases hu

/-- Every declared type stands for something, nothing is built on the invalid type, no type contains itself by
value, and all arrays fit into the address space. -/
structure Completable (tt : TypeTable) : Prop where
  named_bound : ∀ {t pkgPath name bound ms}, tt.shape t = .named pkgPath name bound ms → bound.isSome = true
  not_invalid : ∀ t, invalid ∉ (tt.shape t).components ∧ invalid ∉ (tt.shape t).byValue
  acyclic : ∀ t, ¬Relation.TransGen tt.Contains t t
  arrays_fit : ∀ {t e n l size}, tt.shape t = .array e n → tt.Describes (tt.shape e) l → l.size = some size →
    n * size ≤ tt.target.maxSize

theorem Relaid.contains_eq (h : Relaid tt tt') : tt'.Contains = tt.Contains := by
  funext t u
  rw [Contains, Contains, h.shape_eq]

/-- Whether anything stands in the way is a matter of shapes. -/
theorem Completable.relaid (h : tt.Completable) (hsound : tt.Sound) (hrelaid : Relaid tt tt') :
    tt'.Completable where
  named_bound hs := h.named_bound ((hrelaid.shape_eq _).symm.trans hs)
  not_invalid t := by
    rw [hrelaid.shape_eq]
    exact h.not_invalid t
  acyclic t := by
    rw [hrelaid.contains_eq]
    exact h.acyclic t
  arrays_fit {t e n l size} hs hl hsize := by
    have hback : Extends tt' tt := extends_of_shape_eq hrelaid.target_eq.symm hrelaid.size_eq.symm
      fun t => (hrelaid.shape_eq t).symm
    have hsound' := hrelaid.sound hsound
    rw [hrelaid.shape_eq] at hs
    rw [hrelaid.target_eq]
    refine h.arrays_fit hs (hl.extends hback hsound' hsound ?_ (.inl (hrelaid.shape_eq e).symm)) hsize
    exact hsound'.knows_components e

/-- A type that stands for a meaning, or an array, contains one type; any other type is built and contains none. -/
theorem Completable.byValue_cases (h : tt.Completable) (t : TypeId) :
    (tt.shape t).isDeclared = false ∧ (tt.shape t).byValue = [] ∨
      (∃ u pkgPath name ms, tt.shape t = .named pkgPath name (some u) ms) ∨ ∃ e n, tt.shape t = .array e n := by
  cases hs : tt.shape t with
  | named pkgPath name bound ms =>
      cases bound with
      | none => cases h.named_bound hs
      | some u => exact .inr (.inl ⟨u, pkgPath, name, ms, rfl⟩)
  | array e n => exact .inr (.inr ⟨e, n, rfl⟩)
  | _ => exact .inl ⟨rfl, rfl⟩

theorem Faithful.hashed_named {pkgPath name : String} {ms : List Method} (h : tt.Faithful)
    (hs : tt.shape t = .named pkgPath name (some u) ms) : tt.Hashed t := by
  rw [Hashed, (h.vouched t).named_hash hs, Fingerprint.isUnknown_ofName]

/-- Only the invalid type has its shape. -/
theorem Sound.shape_ne_invalid (h : tt.Sound) (hinvalid : tt.Knows invalid ∧ tt.shape invalid = .basic .invalid)
    (ht : tt.Knows t) (hne : t ≠ invalid) : tt.shape t ≠ .basic .invalid := by
  intro hs
  exact hne (h.unique ht hinvalid.1 (by rw [hs]; rfl) (hs.trans hinvalid.2.symm))

/-! ### Marks and room -/

/-- The types that are not being completed. -/
def unmarked (tt : TypeTable) : Finset Nat :=
  (Finset.range tt.types.size).filter fun i => (tt.info ⟨i⟩).completing = false

theorem mem_unmarked {i : Nat} : i ∈ tt.unmarked ↔ tt.Knows ⟨i⟩ ∧ (tt.info ⟨i⟩).completing = false := by
  rw [unmarked, Finset.mem_filter, Finset.mem_range, Knows]

theorem Refines.unmarked_eq (h : Refines tt tt') : tt'.unmarked = tt.unmarked := by
  ext i
  rw [mem_unmarked, mem_unmarked, h.completing_eq, Knows, h.size_eq, Knows]

theorem completing_marked (ht : tt.Knows t) : ((tt.marked t).info t).completing = true := by
  rw [marked, info_update, if_pos ⟨rfl, ht⟩]

/-- Marking a type takes one place of the room. -/
theorem card_unmarked_marked (ht : tt.Knows t) (hmark : (tt.info t).completing = false) :
    (tt.marked t).unmarked.card + 1 = tt.unmarked.card := by
  have hmem : t.index ∈ tt.unmarked := mem_unmarked.2 ⟨ht, hmark⟩
  have herase : (tt.marked t).unmarked = tt.unmarked.erase t.index := by
    ext i
    rw [mem_unmarked, Finset.mem_erase, mem_unmarked, Knows, size_marked, Knows]
    by_cases hi : i = t.index
    · subst hi
      have hmarked : ((tt.marked t).info ⟨t.index⟩).completing = true := completing_marked ht
      simp [hmarked]
    · have hne : (⟨i⟩ : TypeId) ≠ t := fun heq => hi (congrArg TypeId.index heq)
      simp [info_marked_of_ne hne, hi]
  rw [herase, Finset.card_erase_add_one hmem]

/-- What stays the same while types are completed: nothing stands in the way, and there is room for every type. -/
structure Workable (tt : TypeTable) (room : Nat) : Prop extends tt.Faithful, tt.Completable where
  invalid_eq : tt.Knows invalid ∧ tt.shape invalid = .basic .invalid
  enough : tt.unmarked.card ≤ room

namespace Workable

theorem refines (h : tt.Workable room) (hrefines : Refines tt tt') : tt'.Workable room := by
  refine ⟨hrefines.faithful, h.toCompletable.relaid h.toSound hrefines.toRelaid, ⟨?_, ?_⟩, ?_⟩
  · exact hrefines.extends.knows h.invalid_eq.1
  · rw [hrefines.shape_eq]
    exact h.invalid_eq.2
  · rw [hrefines.unmarked_eq]
    exact h.enough

/-- A type that is not marked can be entered. -/
theorem enter (h : tt.Workable room) (ht : tt.Knows t) (hmark : (tt.info t).completing = false) :
    ∃ room', room = room' + 1 ∧ (tt.marked t).Workable room' := by
  have hcard := card_unmarked_marked ht hmark
  have hroom := h.enough
  have hrelaid := relaid_marked tt t
  refine ⟨room - 1, by omega, h.toFaithful.marked t, h.toCompletable.relaid h.toSound hrelaid, ⟨?_, ?_⟩, by omega⟩
  · exact hrelaid.extends.knows h.invalid_eq.1
  · rw [hrelaid.shape_eq]
    exact h.invalid_eq.2

theorem valid_part {part : TypeId} (h : tt.Workable room) (hpart : part ∈ (tt.shape t).components) :
    tt.Knows part ∧ tt.shape part ≠ .basic .invalid := by
  have hknows := h.knows_components t part hpart
  refine ⟨hknows, h.shape_ne_invalid h.invalid_eq hknows ?_⟩
  rintro rfl
  exact (h.not_invalid t).1 hpart

theorem valid_contained (h : tt.Workable room) (hu : tt.Contains t u) :
    tt.Knows u ∧ tt.shape u ≠ .basic .invalid := by
  have hknows : tt.Knows u := by
    obtain ⟨n, hs⟩ | ⟨pkgPath, name, ms, hs⟩ := contains_cases hu
    · exact h.knows_components t u (by rw [hs]; exact List.mem_singleton_self u)
    · exact h.meant hs
  refine ⟨hknows, h.shape_ne_invalid h.invalid_eq hknows ?_⟩
  rintro rfl
  exact (h.not_invalid t).2 hu

end Workable

/-! ### One attempt -/

theorem computeLayout_refines (h : tt.Faithful) : Refines tt (computeLayout (completeWithin room) t tt).2 :=
  (yields_computeLayout (completeWithin_refines room) (ensures_none _ _) h t h).1

/-- What is known after a layout was computed is known after it was recorded. -/
theorem completeWithin_carries (room : Nat) (h : tt.Faithful) (hsettled : tt.isSettled t = false) :
    Carries (computeLayout (completeWithin room) t (tt.marked t)).2 (completeWithin (room + 1) t tt).2 := by
  have hrelaid := leads_completeWithin (room + 1) t tt
  rw [completeWithin_unsettled hsettled] at hrelaid ⊢
  exact (h.complete_step (completeWithin_refines room) hsettled rfl rfl (hrelaid.sound h.toSound)).1

/-- The layout that was computed is recorded. -/
theorem completeWithin_layout (h : tt.Faithful) (hsettled : tt.isSettled t = false) (ht : tt.Knows t)
    (hl : (computeLayout (completeWithin room) t (tt.marked t)).1 = some l) :
    (completeWithin (room + 1) t tt).2.layout t = l := by
  have hrefines : Refines (tt.marked t) (computeLayout (completeWithin room) t (tt.marked t)).2 :=
    computeLayout_refines (h.marked t)
  have ht' : (computeLayout (completeWithin room) t (tt.marked t)).2.Knows t := by
    rw [Knows, hrefines.size_eq, size_marked]
    exact ht
  rw [completeWithin_unsettled hsettled, layout, info_update, if_pos ⟨rfl, ht'⟩, hl]
  rfl

/-- An array is laid out after its element was completed, and completed again. -/
theorem computeLayout_array {complete : TypeId → TableM Unit} {e : TypeId} {n : Nat} (h : tt.Sound)
    (hs : tt.shape t = .array e n) :
    computeLayout complete t tt =
      ((((complete e (complete e tt).2).2.layout e).array tt.target n).toOption, (complete e (complete e tt).2).2) := by
  have hbuilt : (tt.shape t).isDeclared = false := by
    rw [hs]
    rfl
  have hlayout : (Shape.array e n).layout tt.target (ask complete) (complete e tt).2 = _ := layout_array (h.fits hs)
  rw [computeLayout_asks hbuilt, hs]
  show (Except.toOption ((Shape.array e n).layout tt.target (ask complete) (complete e tt).2).1,
    ((Shape.array e n).layout tt.target (ask complete) (complete e tt).2).2) = _
  rw [hlayout]

/-- An array whose element is laid out rightly is not too large. -/
theorem Faithful.array_granted {e : TypeId} {n : Nat} (h : tt.Faithful) (hc : tt.Completable)
    (hs : tt.shape t = .array e n) : ∃ l, (tt.layout e).array tt.target n = .ok l := by
  refine ⟨_, array_eq_ok.2 ⟨?_, rfl⟩⟩
  have hfits := h.fits hs
  cases hsize : (tt.layout e).size with
  | none =>
      simp only [Layout.maxLength, hsize]
      exact hfits
  | some size =>
      obtain ⟨d, hd, hdsize⟩ := (h.supported e).size_eq hsize
      have hmul := hc.arrays_fit hs hd hdsize
      simp only [Layout.maxLength, hsize]
      split
      · exact hfits
      · next hpos => exact (Nat.le_div_iff_mul_le (Nat.pos_of_ne_zero hpos)).2 hmul

/-- Where nothing stands in the way, a layout is computed. -/
theorem computeLayout_granted (room : Nat) (h : tt.Faithful) (hc : tt.Completable) (t : TypeId) :
    ∃ l, (computeLayout (completeWithin room) t tt).1 = some l := by
  obtain ⟨hbuilt, hempty⟩ | ⟨u, pkgPath, name, ms, hs⟩ | ⟨e, n, hs⟩ := hc.byValue_cases t
  · have harray : ∀ e n, tt.shape t ≠ .array e n := by
      intro e n hs
      rw [hs] at hempty
      cases hempty
    obtain ⟨l, tt', hl⟩ := granted_layout (ask (completeWithin room)) tt.target harray
      ((tt.shape t).components.forM (completeWithin room) tt).2
    refine ⟨l, ?_⟩
    rw [computeLayout_asks hbuilt]
    show Except.toOption ((tt.shape t).layout tt.target (ask (completeWithin room))
      ((tt.shape t).components.forM (completeWithin room) tt).2).1 = some l
    rw [hl]
    rfl
  · rw [computeLayout_bound hs]
    exact ⟨_, rfl⟩
  · have hrefines := completeWithin_refines room e tt h
    have hrefines' := hrefines.trans (completeWithin_refines room e _ hrefines.faithful)
    have hc' := hc.relaid h.toSound hrefines'.toRelaid
    obtain ⟨l, hl⟩ := hrefines'.faithful.array_granted hc' ((hrefines'.shape_eq t).trans hs)
    rw [hrefines'.target_eq] at hl
    rw [computeLayout_array h.toSound hs, hl]
    exact ⟨l, rfl⟩

/-! ### Fingerprints -/

/-- The fingerprint of a type can be found: it is known, or the type is not marked and those of its parts can be
found. -/
inductive Clear (tt : TypeTable) : TypeId → Prop where
  | hashed {t : TypeId} (h : tt.Hashed t) : Clear tt t
  | unmarked {t : TypeId} (h : (tt.info t).completing = false)
      (hparts : ∀ part ∈ (tt.shape t).components, Clear tt part) : Clear tt t

/-- Entering a type does not get in the way of types that were made before it. -/
theorem Clear.entered (h : tt.Clear x) (hsound : tt.Sound) (hx : x.index < t.index)
    (hrefines : Refines (tt.marked t) tt') : tt'.Clear x := by
  induction h with
  | hashed hhashed =>
      refine .hashed (hrefines.hashed ?_)
      rw [Hashed, layout_marked]
      exact hhashed
  | @unmarked x hmark _ ih =>
      have hne : x ≠ t := by
        rintro rfl
        exact Nat.lt_irrefl _ hx
      refine .unmarked ?_ fun part hpart => ?_
      · rw [hrefines.completing_eq, info_marked_of_ne hne]
        exact hmark
      · rw [hrefines.shape_eq, (relaid_marked tt t).shape_eq] at hpart
        exact ih part hpart (Nat.lt_trans (hsound.ordered x part hpart) hx)

/-- Where no type below some place is marked without a fingerprint, all fingerprints below can be found. -/
theorem clear_below (hsound : tt.Sound) {i : Nat}
    (h : ∀ x : TypeId, x.index < i → tt.Hashed x ∨ (tt.info x).completing = false) (hx : x.index < i) : tt.Clear x := by
  induction hj : x.index using Nat.strongRecOn generalizing x with
  | _ j ih =>
      subst hj
      obtain hhashed | hmark := h x hx
      · exact .hashed hhashed
      · refine .unmarked hmark fun part hpart => ?_
        have hlt := hsound.ordered x part hpart
        exact ih part.index hlt (Nat.lt_trans hlt hx) rfl

/-- Completing a type finds its fingerprint, if it can be found. -/
theorem hashed_completeWithin (h : tt.Workable room) (ht : tt.Knows t) (hvalid : tt.shape t ≠ .basic .invalid)
    (hclear : tt.Clear t) : (completeWithin room t tt).2.Hashed t := by
  -- By induction on the place of the type: its parts were made before it.
  induction hi : t.index using Nat.strongRecOn generalizing t tt room with
  | _ i ih =>
      subst hi
      have hrefines := completeWithin_refines room t tt h.toFaithful
      cases hclear with
      | hashed hhashed => exact hrefines.hashed hhashed
      | unmarked hmark hparts =>
          cases hcomplete : (tt.layout t).isComplete with
          | true => exact hrefines.hashed (h.hashed_of_complete hcomplete)
          | false =>
              obtain ⟨room', rfl, hworkable⟩ := h.enter ht hmark
              have hsettled : tt.isSettled t = false := by rw [isSettled, hcomplete, hmark, Bool.or_false]
              have hshape : (tt.marked t).shape t = tt.shape t := (relaid_marked tt t).shape_eq t
              have hsure : Ensures (tt.marked t) (completeWithin room') (· ∈ (tt.shape t).components) := by
                intro part hpart tt' hrefines'
                have hsmaller := h.ordered t part hpart
                have hworkable' := hworkable.refines hrefines'
                have hpart' : part ∈ (tt'.shape t).components := by
                  rw [hrefines'.shape_eq, hshape]
                  exact hpart
                obtain ⟨hknows, hpartValid⟩ := hworkable'.valid_part hpart'
                exact ih part.index hsmaller hworkable' hknows hpartValid
                  ((hparts part hpart).entered h.toSound hsmaller hrefines') rfl
              obtain ⟨-, hanswer⟩ := yields_computeLayout (completeWithin_refines room') hsure hworkable.toFaithful t
                hworkable.toFaithful
              obtain ⟨l, hl⟩ := computeLayout_granted room' hworkable.toFaithful hworkable.toCompletable t
              rw [Hashed, completeWithin_layout h.toFaithful hsettled ht hl]
              rw [hshape] at hanswer
              exact (hanswer l hl).2.2 hvalid fun part hpart => hpart

/-! ### What a type contains -/

/-- An array of arrays, and so on, of a type that is built and contains nothing. -/
inductive Plain (tt : TypeTable) : TypeId → Prop where
  | empty {t : TypeId} (hbuilt : (tt.shape t).isDeclared = false) (hempty : (tt.shape t).byValue = []) : Plain tt t
  | array {t e : TypeId} {n : Nat} (hs : tt.shape t = .array e n) (he : Plain tt e) : Plain tt t

/-- The element of such an array is of the same sort, and was made before. -/
theorem Plain.contained (h : tt.Plain t) (hsound : tt.Sound) (hu : tt.Contains t u) :
    tt.Plain u ∧ u.index < t.index := by
  rw [Contains] at hu
  cases h with
  | empty _ hempty =>
      rw [hempty] at hu
      cases hu
  | array hs he =>
      rw [hs, Shape.byValue, List.mem_singleton] at hu
      subst hu
      exact ⟨he, hsound.ordered t u (by rw [hs]; exact List.mem_singleton_self u)⟩

theorem Plain.of_shape_eq (h : tt.Plain t) (hshape : ∀ t, tt'.shape t = tt.shape t) : tt'.Plain t := by
  induction h with
  | empty hbuilt hempty =>
      rw [← hshape] at hbuilt hempty
      exact .empty hbuilt hempty
  | array hs _ ih => exact .array ((hshape _).trans hs) ih

/-- On the way from a type to what it contains, all fingerprints are known but those of plain arrays. -/
def Prepared (tt : TypeTable) (t : TypeId) : Prop :=
  ∀ x, Relation.ReflTransGen tt.Contains t x → tt.Hashed x ∨ tt.Plain x

/-- No type is marked on the way from a type to what it contains. -/
def Open (tt : TypeTable) (t : TypeId) : Prop :=
  ∀ x, Relation.ReflTransGen tt.Contains t x → (tt.info x).completing = false

theorem Prepared.relaid (h : tt.Prepared t) (hrelaid : Relaid tt tt') (hhashed : ∀ {x}, tt.Hashed x → tt'.Hashed x) :
    tt'.Prepared t := by
  intro x hx
  rw [hrelaid.contains_eq] at hx
  exact (h x hx).imp hhashed fun hplain => hplain.of_shape_eq hrelaid.shape_eq

/-- All that a finished type contains is finished. -/
theorem Faithful.prepared_of_complete (h : tt.Faithful) (hcomplete : (tt.layout t).isComplete = true) :
    tt.Prepared t := by
  intro x hx
  refine .inl (h.hashed_of_complete ?_)
  induction hx with
  | refl => exact hcomplete
  | tail _ hu ih => exact (h.supported _).contained ih _ hu

/-- Entering a type leaves the way open from what it contains. -/
theorem Open.entered (h : tt.Open t) (hc : tt.Completable) (hu : tt.Contains t u) : (tt.marked t).Open u := by
  intro x hx
  rw [(relaid_marked tt t).contains_eq] at hx
  have hne : x ≠ t := by
    rintro rfl
    exact hc.acyclic x (Relation.TransGen.head' hu hx)
  rw [info_marked_of_ne hne]
  exact h x (.head hu hx)

/-- The fingerprint of an array that is not plain can be found: on the way there is a declared type. -/
theorem Open.clear (h : tt.Open t) (hf : tt.Faithful) (hc : tt.Completable) (hplain : ¬tt.Plain t) : tt.Clear t := by
  induction hi : t.index using Nat.strongRecOn generalizing t with
  | _ i ih =>
      subst hi
      obtain ⟨hbuilt, hempty⟩ | ⟨u, pkgPath, name, ms, hs⟩ | ⟨e, n, hs⟩ := hc.byValue_cases t
      · exact absurd (.empty hbuilt hempty) hplain
      · exact .hashed (hf.hashed_named hs)
      · refine .unmarked (h t .refl) fun part hpart => ?_
        have hlt := hf.ordered t part hpart
        rw [hs, Shape.components, List.mem_singleton] at hpart
        subst hpart
        exact ih part.index hlt (fun x hx => h x (.head (contains_array hs) hx)) (fun he => hplain (.array hs he)) rfl

/-- A type is completed after what it contains. -/
theorem carries_of_contains (room : Nat) (h : tt.Faithful) (hsettled : tt.isSettled t = false) (hu : tt.Contains t u) :
    Carries (completeWithin room u (tt.marked t)).2 (completeWithin (room + 1) t tt).2 := by
  have hcarries := completeWithin_carries room h hsettled
  have hmarked := h.marked t
  have hshape := (relaid_marked tt t).shape_eq t
  obtain ⟨n, hs⟩ | ⟨pkgPath, name, ms, hs⟩ := contains_cases hu
  · have hrefines := completeWithin_refines room u _ (completeWithin_refines room u _ hmarked).faithful
    rw [computeLayout_array hmarked.toSound (hshape.trans hs)] at hcarries
    exact hrefines.carries.trans hcarries
  · rw [computeLayout_bound (hshape.trans hs)] at hcarries
    exact hcarries

/-- A type is finished if what it contains was. -/
theorem complete_of_contains (h : tt.Workable (room + 1)) (hworkable : (tt.marked t).Workable room)
    (hsettled : tt.isSettled t = false) (ht : tt.Knows t) (hu : tt.Contains t u)
    (hcomplete : ((completeWithin room u (tt.marked t)).2.layout u).isComplete = true) :
    ((completeWithin (room + 1) t tt).2.layout t).isComplete = true := by
  obtain ⟨l, hl⟩ := computeLayout_granted room hworkable.toFaithful hworkable.toCompletable t
  rw [completeWithin_layout h.toFaithful hsettled ht hl]
  have hmarked := hworkable.toFaithful
  have hshape := (relaid_marked tt t).shape_eq t
  obtain ⟨n, hs⟩ | ⟨pkgPath, name, ms, hs⟩ := contains_cases hu
  · have hrefines := completeWithin_refines room u _ (completeWithin_refines room u _ hmarked).faithful
    rw [computeLayout_array hmarked.toSound (hshape.trans hs)] at hl
    obtain ⟨-, rfl⟩ := array_eq_ok.1 (eq_ok_of_toOption hl)
    exact hrefines.complete hcomplete
  · rw [computeLayout_bound (hshape.trans hs)] at hl
    cases hl
    rw [isComplete_withHash]
    exact hcomplete

/-! ### Attempts -/

/-- After an attempt, the way from a type to what it contains is prepared. -/
theorem prepared_completeWithin (h : tt.Workable room) (ht : tt.Knows t) (hvalid : tt.shape t ≠ .basic .invalid)
    (hopen : tt.Open t) : (completeWithin room t tt).2.Prepared t := by
  -- By induction on the room: what a type contains is entered with one more type marked.
  induction room generalizing t tt with
  | zero =>
      obtain ⟨room', hroom, -⟩ := h.enter ht (hopen t .refl)
      cases hroom
  | succ room ih =>
      have hrefines := completeWithin_refines (room + 1) t tt h.toFaithful
      cases hcomplete : (tt.layout t).isComplete with
      | true => exact (h.prepared_of_complete hcomplete).relaid hrefines.toRelaid hrefines.hashed
      | false =>
          have hmark := hopen t .refl
          have hsettled : tt.isSettled t = false := by rw [isSettled, hcomplete, hmark, Bool.or_false]
          obtain ⟨room', hroom, hworkable⟩ := h.enter ht hmark
          obtain rfl := Nat.succ.inj hroom
          intro x hx
          rw [hrefines.contains_eq] at hx
          obtain rfl | ⟨u, hu, hx⟩ := Relation.ReflTransGen.cases_head hx
          · by_cases hplain : tt.Plain t
            · exact .inr (hplain.of_shape_eq hrefines.shape_eq)
            · exact .inl (hashed_completeWithin h ht hvalid (hopen.clear h.toFaithful h.toCompletable hplain))
          · have hu' : (tt.marked t).Contains t u := by
              rw [(relaid_marked tt t).contains_eq]
              exact hu
            obtain ⟨hknows, huvalid⟩ := hworkable.valid_contained hu'
            have hprepared := ih hworkable hknows huvalid (hopen.entered h.toCompletable hu)
            have hcarries := carries_of_contains room h.toFaithful hsettled hu
            have hinner := completeWithin_refines room u (tt.marked t) hworkable.toFaithful
            have hx' : Relation.ReflTransGen (completeWithin room u (tt.marked t)).2.Contains u x := by
              rw [hinner.contains_eq, (relaid_marked tt t).contains_eq]
              exact hx
            refine (hprepared x hx').imp hcarries.hashed fun hplain => hplain.of_shape_eq fun y => ?_
            rw [hrefines.shape_eq, hinner.shape_eq, (relaid_marked tt t).shape_eq]

/-- On a prepared way an attempt succeeds.  The types that are marked further out have fingerprints, but for arrays
that the type is a plain element of, and those were made after it: no fingerprint that is needed is missing. -/
theorem complete_of_prepared (h : tt.Workable room) (ht : tt.Knows t) (hvalid : tt.shape t ≠ .basic .invalid)
    (hopen : tt.Open t) (hprepared : tt.Prepared t)
    (hmarked : ∀ x, (tt.info x).completing = true → tt.Hashed x ∨ tt.Plain t ∧ t.index < x.index) :
    ((completeWithin room t tt).2.layout t).isComplete = true := by
  induction room generalizing t tt with
  | zero =>
      obtain ⟨room', hroom, -⟩ := h.enter ht (hopen t .refl)
      cases hroom
  | succ room ih =>
      have hrefines := completeWithin_refines (room + 1) t tt h.toFaithful
      cases hcomplete : (tt.layout t).isComplete with
      | true => exact hrefines.complete hcomplete
      | false =>
          have hmark := hopen t .refl
          have hsettled : tt.isSettled t = false := by rw [isSettled, hcomplete, hmark, Bool.or_false]
          obtain ⟨room', hroom, hworkable⟩ := h.enter ht hmark
          obtain rfl := Nat.succ.inj hroom
          have hcontained {u : TypeId} (hu : tt.Contains t u) :
              ((completeWithin (room + 1) t tt).2.layout t).isComplete = true := by
            have hrelaid := relaid_marked tt t
            have hu' : (tt.marked t).Contains t u := by
              rw [hrelaid.contains_eq]
              exact hu
            obtain ⟨hknows, huvalid⟩ := hworkable.valid_contained hu'
            refine complete_of_contains h hworkable hsettled ht hu ?_
            refine ih hworkable hknows huvalid (hopen.entered h.toCompletable hu) ?_ ?_
            · have hprepared' : tt.Prepared u := fun x hx => hprepared x (.head hu hx)
              refine hprepared'.relaid hrelaid fun {x} hx => ?_
              rw [Hashed, layout_marked]
              exact hx
            · intro x hx
              rw [Hashed, layout_marked]
              -- A plain type that is marked, `t` among them, was made after what it contains.
              have hplain : tt.Plain t ∧ t.index ≤ x.index → (tt.marked t).Plain u ∧ u.index < x.index := by
                rintro ⟨hplain, hle⟩
                obtain ⟨hplain', hlt⟩ := hplain.contained h.toSound hu
                exact ⟨hplain'.of_shape_eq hrelaid.shape_eq, Nat.lt_of_lt_of_le hlt hle⟩
              by_cases hxt : x = t
              · subst hxt
                exact (hprepared x .refl).imp_right fun hp => hplain ⟨hp, Nat.le_refl _⟩
              · rw [info_marked_of_ne hxt] at hx
                exact (hmarked x hx).imp_right fun hp => hplain ⟨hp.1, Nat.le_of_lt hp.2⟩
          obtain ⟨hbuilt, hempty⟩ | ⟨u, pkgPath, name, ms, hs⟩ | ⟨e, n, hs⟩ := h.byValue_cases t
          · have hclear : tt.Clear t := by
              refine .unmarked hmark fun part hpart => ?_
              refine clear_below h.toSound (fun x hx => ?_) (h.ordered t part hpart)
              cases hxmark : (tt.info x).completing with
              | false => exact .inr rfl
              | true =>
                  obtain hhashed | ⟨-, hlt⟩ := hmarked x hxmark
                  · exact .inl hhashed
                  · exact absurd hx (Nat.lt_asymm hlt)
            have hhashed := hashed_completeWithin h ht hvalid hclear
            rw [← hrefines.shape_eq] at hbuilt hempty
            exact (hrefines.faithful.supported t).finished hbuilt hempty hhashed
          · exact hcontained (contains_named hs)
          · exact hcontained (contains_array hs)

/-- The way from a type that does not stand for an array is prepared from the start. -/
theorem Workable.prepared_of_not_array (h : tt.Workable room)
    (harray : ∀ e n, tt.underlyingShape? t ≠ some (.array e n)) : tt.Prepared t := by
  have hend {t x : TypeId} (hempty : (tt.shape t).byValue = []) (hx : Relation.ReflTransGen tt.Contains t x) :
      x = t := by
    obtain rfl | ⟨u, hu, -⟩ := Relation.ReflTransGen.cases_head hx
    · rfl
    · rw [Contains, hempty] at hu
      cases hu
  intro x hx
  obtain ⟨hbuilt, hempty⟩ | ⟨u, pkgPath, name, ms, hs⟩ | ⟨e, n, hs⟩ := h.byValue_cases t
  · rw [hend hempty hx]
    exact .inr (.empty hbuilt hempty)
  · obtain rfl | ⟨v, hv, hx⟩ := Relation.ReflTransGen.cases_head hx
    · exact .inl (h.hashed_named hs)
    · rw [Contains, hs, Shape.byValue, List.mem_singleton] at hv
      subst hv
      obtain ⟨hbuilt, hempty⟩ | ⟨w, _, _, _, hs'⟩ | ⟨e, n, hs'⟩ := h.byValue_cases v
      · rw [hend hempty hx]
        exact .inr (.empty hbuilt hempty)
      · have hbuilt := h.bound hs
        rw [hs'] at hbuilt
        cases hbuilt
      · refine absurd ?_ (harray e n)
        simp only [underlyingShape?, underlying?, hs, Option.map_some, hs']
  · refine absurd ?_ (harray e n)
    simp only [underlyingShape?, underlying?, hs, Option.map_some]

/-! ### Tables that can be reached -/

theorem atRest_new (target : Target) : (new target).AtRest := by
  intro t
  simp only [info, new, List.getElem?_toArray, List.getElem?_map]
  cases (Kind.invalid :: Kind.basics)[t.index]? with
  | none => rfl
  | some k => rfl

/-- The invalid type has the first place. -/
theorem Advances.invalid_eq {target : Target} (h : Advances (new target) tt) :
    tt.Knows invalid ∧ tt.shape invalid = .basic .invalid := by
  have hknows : (new target).Knows invalid := by
    rw [Knows, new, List.size_toArray, List.length_map]
    exact Nat.succ_pos _
  exact ⟨h.knows hknows, h.shape_eq hknows rfl⟩

/-- Where nothing stands in the way and nothing is being completed, there is room. -/
theorem Advances.workable {target : Target} (h : Advances (new target) tt) (hc : tt.Completable) :
    tt.Workable tt.types.size := by
  refine ⟨h.faithful, hc, h.invalid_eq, ?_⟩
  exact (Finset.card_filter_le _ _).trans (Finset.card_range _).le

/-- In a table in which nothing stands in the way, one attempt finds the fingerprint of a type; it completes a type
that does not stand for an array, and a second attempt completes any type. -/
theorem completed_twice {target : Target} (h : Reaches (new target) tt) (hc : tt.Completable) (ht : tt.Knows t)
    (hne : t ≠ invalid) :
    (complete t tt).2.Hashed t ∧
    ((∀ e n, tt.underlyingShape? t ≠ some (.array e n)) → ((complete t tt).2.layout t).isComplete = true) ∧
    ((complete t (complete t tt).2).2.layout t).isComplete = true := by
  have hadvances := h.advances (faithful_new target)
  have hworkable := hadvances.workable hc
  have hrest : tt.AtRest := hadvances.atRest (atRest_new target)
  have hvalid := hworkable.shape_ne_invalid hworkable.invalid_eq ht hne
  have hrefines : Refines tt (complete t tt).2 := refining_complete t tt hworkable.toFaithful
  have hunmarked {x : TypeId} {P : Prop} (hx : (tt.info x).completing = true) : P := by
    rw [hrest x] at hx
    cases hx
  refine ⟨?_, ?_, ?_⟩
  · refine hashed_completeWithin hworkable ht hvalid (clear_below (i := tt.types.size) hworkable.toSound ?_ ht)
    exact fun x _ => .inr (hrest x)
  · intro harray
    exact complete_of_prepared hworkable ht hvalid (fun x _ => hrest x) (hworkable.prepared_of_not_array harray)
      fun x hx => hunmarked hx
  · have hrest' (x : TypeId) : ((complete t tt).2.info x).completing = false :=
      (hrefines.completing_eq x).trans (hrest x)
    have hvalid' : (complete t tt).2.shape t ≠ .basic .invalid := by
      rw [hrefines.shape_eq]
      exact hvalid
    have hworkable' : (complete t tt).2.Workable (complete t tt).2.types.size := by
      rw [hrefines.size_eq]
      exact hworkable.refines hrefines
    have hprepared : (complete t tt).2.Prepared t :=
      prepared_completeWithin hworkable ht hvalid fun x _ => hrest x
    refine complete_of_prepared hworkable' (hrefines.extends.knows ht) hvalid' (fun x _ => hrest' x) hprepared ?_
    intro x hx
    rw [hrest' x] at hx
    cases hx

/-! ### A type that needs two attempts -/

/-- The table of the declaration `type T *[3]T`. -/
def pointerCycle : TypeTable :=
  let tt := (newNamed "p" "T" (new .amd64)).2
  let tt := (newArray ⟨26⟩ 3 tt).2
  let tt := (newPointer ⟨27⟩ tt).2
  (setUnderlying ⟨26⟩ ⟨28⟩ tt).2

theorem reaches_pointerCycle : Reaches (new .amd64) pointerCycle := by
  have hnamed : Reaches (new .amd64) _ := .step .refl (.named "p" "T") (by decide +kernel)
  have harray := hnamed.step (.array ⟨26⟩ 3) (by decide +kernel)
  have hpointer := harray.step (.pointer ⟨27⟩) (by decide +kernel)
  exact hpointer.step (.bind ⟨26⟩ ⟨28⟩) (by decide +kernel)

/-- The declared type, the array and the pointer are built on each other, and the other types on nothing. -/
theorem shape_pointerCycle (t : TypeId) :
    t = ⟨26⟩ ∧ pointerCycle.shape t = .named "p" "T" (some ⟨28⟩) [] ∨
      t = ⟨27⟩ ∧ pointerCycle.shape t = .array ⟨26⟩ 3 ∨ t = ⟨28⟩ ∧ pointerCycle.shape t = .pointer ⟨27⟩ ∨
      (pointerCycle.shape t).components = [] ∧ (pointerCycle.shape t).byValue = [] ∧
        (pointerCycle.shape t).isDeclared = false := by
  have hknown : ∀ i < 29,
      (⟨i⟩ : TypeId) = ⟨26⟩ ∧ pointerCycle.shape ⟨i⟩ = .named "p" "T" (some ⟨28⟩) [] ∨
        (⟨i⟩ : TypeId) = ⟨27⟩ ∧ pointerCycle.shape ⟨i⟩ = .array ⟨26⟩ 3 ∨
        (⟨i⟩ : TypeId) = ⟨28⟩ ∧ pointerCycle.shape ⟨i⟩ = .pointer ⟨27⟩ ∨
        (pointerCycle.shape ⟨i⟩).components = [] ∧ (pointerCycle.shape ⟨i⟩).byValue = [] ∧
          (pointerCycle.shape ⟨i⟩).isDeclared = false := by
    decide +kernel
  have hsize : pointerCycle.types.size = 29 := by decide +kernel
  by_cases ht : t.index < 29
  · exact hknown t.index ht
  · have hunknown : ¬pointerCycle.Knows t := by
      rw [Knows, hsize]
      exact ht
    rw [shape, info_of_not_knows hunknown]
    exact .inr (.inr (.inr ⟨rfl, rfl, rfl⟩))

/-- How far a type is from one that contains nothing. -/
def depthInCycle (t : TypeId) : Nat :=
  if t = ⟨27⟩ then 2 else if t = ⟨26⟩ then 1 else 0

theorem completable_pointerCycle : pointerCycle.Completable where
  named_bound {t pkgPath name bound ms} hs := by
    obtain ⟨-, hs'⟩ | ⟨-, hs'⟩ | ⟨-, hs'⟩ | ⟨-, -, hs'⟩ := shape_pointerCycle t
    · cases hs.symm.trans hs'
      rfl
    · cases hs.symm.trans hs'
    · cases hs.symm.trans hs'
    · rw [hs] at hs'
      cases hs'
  not_invalid t := by
    obtain ⟨-, hs⟩ | ⟨-, hs⟩ | ⟨-, hs⟩ | ⟨hcomponents, hbyValue, -⟩ := shape_pointerCycle t
    · rw [hs]
      decide
    · rw [hs]
      decide
    · rw [hs]
      decide
    · rw [hcomponents, hbyValue]
      decide
  acyclic t := by
    have hless {t u : TypeId} (hu : pointerCycle.Contains t u) : depthInCycle u < depthInCycle t := by
      rw [Contains] at hu
      obtain ⟨rfl, hs⟩ | ⟨rfl, hs⟩ | ⟨rfl, hs⟩ | ⟨-, hs, -⟩ := shape_pointerCycle t
      · rw [hs, Shape.byValue, List.mem_singleton] at hu
        subst hu
        decide
      · rw [hs, Shape.byValue, List.mem_singleton] at hu
        subst hu
        decide
      · rw [hs] at hu
        cases hu
      · rw [hs] at hu
        cases hu
    intro hcycle
    have hlt {u : TypeId} (hu : Relation.TransGen pointerCycle.Contains t u) : depthInCycle u < depthInCycle t := by
      induction hu with
      | single hu => exact hless hu
      | tail _ hu ih => exact Nat.lt_trans (hless hu) ih
    exact Nat.lt_irrefl _ (hlt hcycle)
  arrays_fit {t e n l size} hs hl hsize := by
    obtain ⟨-, hs'⟩ | ⟨-, hs'⟩ | ⟨-, hs'⟩ | ⟨-, hs', -⟩ := shape_pointerCycle t
    · cases hs.symm.trans hs'
    · cases hs.symm.trans hs'
      have hshapes : pointerCycle.shape ⟨26⟩ = .named "p" "T" (some ⟨28⟩) [] ∧
          pointerCycle.shape ⟨28⟩ = .pointer ⟨27⟩ := by decide +kernel
      rw [hshapes.1] at hl
      cases hl with
      | reference href => cases href
      | named hu =>
          rw [hshapes.2] at hu
          cases hu with
          | reference href =>
              cases href
              cases hsize
              decide +kernel
    · cases hs.symm.trans hs'
    · rw [hs] at hs'
      cases hs'

/-- The array of `type T *[3]T` is not finished after one attempt: its pointer asks for a fingerprint that the array
is about to get. -/
theorem completed_once_fails :
    Reaches (new .amd64) pointerCycle ∧ pointerCycle.Completable ∧ pointerCycle.Knows ⟨27⟩ ∧
      (⟨27⟩ : TypeId) ≠ invalid ∧ ((complete ⟨27⟩ pointerCycle).2.layout ⟨27⟩).isComplete = false :=
  ⟨reaches_pointerCycle, completable_pointerCycle, by decide +kernel, by decide, by decide +kernel⟩

/-- A second attempt finishes it. -/
theorem completed_twice_cycle :
    ((complete ⟨27⟩ (complete ⟨27⟩ pointerCycle).2).2.layout ⟨27⟩).isComplete = true :=
  (completed_twice reaches_pointerCycle completable_pointerCycle (t := ⟨27⟩) (by decide +kernel) (by decide)).2.2

end GoSource.TypeTable
