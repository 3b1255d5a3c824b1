import GoSource.Proofs.Typing.Likeness

/-!
# Operations under other handles

What an operation does to a table, it does to one that mirrors it, and its answers correspond.

* **`World`**: which handles correspond; later worlds know more of them.
* **`Mimics I w V m m'`**: from states that correspond in the world `w`, the actions `m` and `m'` lead to states that
  correspond in a later world, with answers that are related by `V`, or with the same failure.
* One lemma for each operation on tables.
-/

namespace GoSource

open TypeTable

/-! ### Worlds -/

/-- The types of one table, and the handles that they have in another. -/
structure World where
  types : TypeTable
  names : TypeId → TypeId

/-- A later world keeps the handles of the types that were known. -/
structure World.Later (w w' : World) : Prop extends Extends w.types w'.types where
  sound : w.types.Sound → w'.types.Sound
  names_eq : ∀ {t}, w.types.Knows t → w'.names t = w.names t

/-- Handles that correspond. -/
def World.Twin (w : World) (t a : TypeId) : Prop :=
  w.types.Knows t ∧ a = w.names t

variable {w w' w'' : World} {t a u b : TypeId}

theorem World.Later.refl (w : World) : w.Later w :=
  ⟨.refl _, id, fun _ => rfl⟩

theorem World.Later.trans (h : w.Later w') (h' : w'.Later w'') : w.Later w'' :=
  ⟨h.toExtends.trans h'.toExtends, h'.sound ∘ h.sound, fun ht => (h'.names_eq (h.knows ht)).trans (h.names_eq ht)⟩

theorem World.Later.grows (h : w.Later w') (hsound : w.types.Sound) : Grows w.types w'.types :=
  ⟨h.toExtends, h.sound hsound⟩

theorem World.Twin.later (h : w.Twin t a) (hlater : w.Later w') : w'.Twin t a :=
  ⟨hlater.knows h.1, h.2.trans (hlater.names_eq h.1).symm⟩

/-- Methods that correspond. -/
def World.TwinMethod (w : World) (m m' : Method) : Prop :=
  w.types.Knows m.typ ∧ m' = m.renamed w.names

theorem World.Twin.method (h : w.Twin t a) (name pkgPath : String) :
    w.TwinMethod { name, pkgPath, typ := t } { name, pkgPath, typ := a } :=
  ⟨h.1, by rw [h.2]; rfl⟩

theorem World.TwinMethod.later {m m' : Method} (h : w.TwinMethod m m') (hlater : w.Later w') : w'.TwinMethod m m' := by
  refine ⟨hlater.knows h.1, ?_⟩
  rw [h.2, Method.renamed, Method.renamed, hlater.names_eq h.1]

theorem forall₂_image_iff {α β : Type} {P : α → Prop} {f : α → β} {xs : List α} {ys : List β} :
    List.Forall₂ (fun x y => P x ∧ y = f x) xs ys ↔ (∀ x ∈ xs, P x) ∧ ys = xs.map f := by
  constructor
  · intro h
    induction h with
    | nil => exact ⟨fun _ hx => absurd hx List.not_mem_nil, rfl⟩
    | cons hhead _ ih =>
        obtain ⟨hknown, rfl⟩ := ih
        exact ⟨List.forall_mem_cons.2 ⟨hhead.1, hknown⟩, by rw [hhead.2, List.map_cons]⟩
  · rintro ⟨hknown, rfl⟩
    exact List.forall₂_map_right_iff.2 (List.forall₂_same.2 fun t ht => ⟨hknown t ht, rfl⟩)

/-- Lists of handles that correspond. -/
theorem World.twins_iff {ts as : List TypeId} :
    List.Forall₂ w.Twin ts as ↔ (∀ t ∈ ts, w.types.Knows t) ∧ as = ts.map w.names :=
  forall₂_image_iff

theorem World.twinMethods_iff {ms ms' : List Method} :
    List.Forall₂ w.TwinMethod ms ms' ↔ (∀ m ∈ ms, w.types.Knows m.typ) ∧ ms' = ms.map (Method.renamed w.names) :=
  forall₂_image_iff

/-! ### Actions that do the same -/

/-- Outcomes that correspond: answers that are related, or the same failure. -/
inductive Agree {α β ε : Type} (V : α → β → Prop) : Except ε α → Except ε β → Prop where
  | ok {x : α} {y : β} (h : V x y) : Agree V (.ok x) (.ok y)
  | error (e : ε) : Agree V (.error e) (.error e)

theorem Agree.imp {α β ε : Type} {V V' : α → β → Prop} {x : Except ε α} {y : Except ε β} (h : Agree V x y)
    (hV : ∀ x y, V x y → V' x y) : Agree V' x y := by
  cases h with
  | ok h => exact .ok (hV _ _ h)
  | error e => exact .error e

theorem Agree.eq {α ε : Type} {x y : Except ε α} (h : Agree Eq x y) : y = x := by
  cases h with
  | ok h => rw [h]
  | error e => rfl

/-- From states that correspond, the actions lead to states that correspond, with answers that do. -/
def Mimics {σ ε α β : Type} (I : World → σ → σ → Prop) (w : World) (V : World → α → β → Prop)
    (m : ExceptT ε (StateM σ) α) (m' : ExceptT ε (StateM σ) β) : Prop :=
  ∀ s s', I w s s' → ∃ w', w.Later w' ∧ I w' (m s).2 (m' s').2 ∧ Agree (V w') (m s).1 (m' s').1

namespace Mimics

variable {σ ε α β γ δ : Type} {I : World → σ → σ → Prop} {V : World → α → β → Prop} {W : World → γ → δ → Prop}
  {m : ExceptT ε (StateM σ) α} {m' : ExceptT ε (StateM σ) β}

theorem pure {x : α} {y : β} (h : V w x y) : Mimics I w V (Pure.pure x : ExceptT ε (StateM σ) α) (Pure.pure y) :=
  fun _ _ hs => ⟨w, .refl w, hs, .ok h⟩

theorem throw (e : ε) : Mimics I w V (MonadExcept.throw e : ExceptT ε (StateM σ) α) (MonadExcept.throw e) :=
  fun _ _ hs => ⟨w, .refl w, hs, .error e⟩

theorem bind {k : α → ExceptT ε (StateM σ) γ} {k' : β → ExceptT ε (StateM σ) δ} (h : Mimics I w V m m')
    (hk : ∀ w', w.Later w' → ∀ x y, V w' x y → Mimics I w' W (k x) (k' y)) :
    Mimics I w W (m >>= k) (m' >>= k') := by
  intro s s' hs
  obtain ⟨w', hlater, hs', hagree⟩ := h s s' hs
  show ∃ w'', w.Later w'' ∧ I w'' (ExceptT.bindCont k (m s).1 (m s).2).2 (ExceptT.bindCont k' (m' s').1 (m' s').2).2 ∧
    Agree (W w'') (ExceptT.bindCont k (m s).1 (m s).2).1 (ExceptT.bindCont k' (m' s').1 (m' s').2).1
  cases hrun : m s with
  | mk outcome s₁ =>
      cases hrun' : m' s' with
      | mk outcome' s₁' =>
          rw [hrun, hrun'] at hs' hagree
          cases hagree with
          | error e => exact ⟨w', hlater, hs', .error e⟩
          | ok hxy =>
              obtain ⟨w'', hlater', hs'', hagree'⟩ := hk w' hlater _ _ hxy s₁ s₁' hs'
              exact ⟨w'', hlater.trans hlater', hs'', hagree'⟩

/-- Looking at the state. -/
theorem get {k k' : σ → ExceptT ε (StateM σ) γ} {W : World → γ → γ → Prop}
    (h : ∀ s s', I w s s' → Mimics I w W (k s) (k' s')) :
    Mimics I w W (MonadState.get >>= k) (MonadState.get >>= k') :=
  fun s s' hs => h s s' hs s s' hs

theorem imp {V' : World → α → β → Prop} (h : Mimics I w V m m') (hV : ∀ w' x y, V w' x y → V' w' x y) :
    Mimics I w V' m m' := by
  intro s s' hs
  obtain ⟨w', hlater, hs', hagree⟩ := h s s' hs
  exact ⟨w', hlater, hs', hagree.imp (hV w')⟩

theorem ite {c : Prop} [Decidable c] {n : ExceptT ε (StateM σ) α} {n' : ExceptT ε (StateM σ) β}
    (h : c → Mimics I w V m m') (h' : ¬c → Mimics I w V n n') :
    Mimics I w V (if c then m else n) (if c then m' else n') := by
  by_cases hc : c
  · rw [if_pos hc, if_pos hc]
    exact h hc
  · rw [if_neg hc, if_neg hc]
    exact h' hc

end Mimics

/-! ### Declared types -/

namespace TypeTable

variable {small big : TypeTable} {f : TypeId → TypeId} {start : Nat} {base : TypeId → Prop}

theorem addMethod_run (t : TypeId) (m : Method) (tt : TypeTable) :
    addMethod t m tt = (match tt.shape t with
      | .named pkgPath name bound methods => do
          if (tt.shape m.typ).kind ≠ .func then throw (.invalidMethodType m.name (tt.spell m.typ))
          match methods.find? (·.sameName m) with
          | some old => if old.typ ≠ m.typ then throw (.duplicateMethod m.qualifiedName)
          | none =>
              let methods := (methods ++ [m]).mergeSort Method.le
              set (tt.update t fun info => { info with shape := .named pkgPath name bound methods })
      | _ => throw (.notNamed (tt.spell t)) : TypeM Unit) tt := rfl

/-- A primed type stays primed when it gets methods. -/
theorem Primed.redeclared {tt : TypeTable} {pkgPath name : String} {bound : Option TypeId} {ms ms' : List Method}
    (h : tt.Primed t) (hs : tt.shape t = .named pkgPath name bound ms) :
    (tt.update t ({ · with shape := .named pkgPath name bound ms' })).Primed t := by
  obtain ⟨_, _, u, _, hbound, hu, hmark⟩ := h
  have ht : tt.Knows t := knows_of_shape_ne (by rw [hs]; simp)
  cases hs.symm.trans hbound
  refine ⟨pkgPath, name, u, ms', ?_, ?_, ?_⟩
  · rw [shape_update, if_pos ⟨rfl, ht⟩]
  · rw [layout, info_update]
    split
    · next heq => rw [← heq.1]; exact hu
    · exact hu
  · rw [info_update, if_pos ⟨rfl, ht⟩]
    exact hmark

namespace Mirrors

theorem knows_bound (h : Mirrors start base f small big) (ht : small.Knows t) {pkgPath name : String}
    {bound : Option TypeId} {ms : List Method} (hs : small.shape t = .named pkgPath name bound ms) :
    ∀ u ∈ bound.toList, small.Knows u := by
  intro u hu
  refine h.handles ht ?_
  rw [hs]
  exact List.mem_append_left _ hu

theorem knows_method (h : Mirrors start base f small big) (ht : small.Knows t) {pkgPath name : String}
    {bound : Option TypeId} {ms : List Method} (hs : small.shape t = .named pkgPath name bound ms) :
    ∀ u ∈ ms.map Method.typ, small.Knows u := by
  intro u hu
  refine h.handles ht ?_
  rw [hs]
  exact List.mem_append_right _ hu

/-- A declared type that stands for nothing yet has corresponding methods, and the same is known about it. -/
theorem unbound (h : Mirrors start base f small big) (ht : small.Knows t) {pkgPath name : String} {ms : List Method}
    (hs : small.shape t = .named pkgPath name none ms) :
    big.shape (f t) = .named pkgPath name none (ms.map (Method.renamed f)) ∧ big.layout (f t) = small.layout t := by
  constructor
  · cases h.echoes ht with
    | same heq => rw [heq, hs, Shape.renamed, Option.map_none]
    | interface hbound => cases hs.symm.trans hbound
  · rcases h.paced ht with heven | ⟨⟨_, _, _, _, hbound, -⟩, -⟩
    · exact heven
    · cases hs.symm.trans hbound

/-- Corresponding declared types get corresponding meanings, or the same fault. -/
theorem setUnderlying (h : Mirrors start base f small big) (ht : small.Knows t) (hu : small.Knows u) :
    (TypeTable.setUnderlying (f t) (f u) big).1 = (TypeTable.setUnderlying t u small).1 ∧
      Mirrors start base f (TypeTable.setUnderlying t u small).2 (TypeTable.setUnderlying (f t) (f u) big).2 := by
  have hsmall := h.faithful.setUnderlying (t := t) hu
  have hbig := h.faithful'.setUnderlying (t := f t) (h.knows hu)
  have hmeaning := h.underlying?_eq hu
  rw [setUnderlying_run] at hsmall hbig ⊢
  rw [setUnderlying_run]
  obtain ⟨hbuilt, hs'⟩ | ⟨pkgPath, name, bound, ms, ms', hs, hs'⟩ := h.cases_shape ht
  · rw [hs', ← h.spell_eq ht]
    cases hs : small.shape t with
    | named =>
        rw [hs] at hbuilt
        cases hbuilt
    | _ => exact ⟨rfl, h⟩
  · rw [hs] at hsmall ⊢
    rw [hs'] at hbig ⊢
    rw [hmeaning] at hbig ⊢
    dsimp only at hsmall hbig ⊢
    rw [← h.spell_eq ht, ← h.spell_eq hu]
    cases hv : small.underlying? u with
    | none => exact ⟨rfl, h⟩
    | some v =>
        rw [hv] at hsmall hbig
        cases bound with
        | some _ => exact ⟨rfl, h⟩
        | none =>
            obtain ⟨hvknown, hvbuilt⟩ := h.underlying_known hu hv
            obtain ⟨hown, heven⟩ := h.unbound ht hs
            obtain rfl : ms' = ms.map (Method.renamed f) := by
              cases hs'.symm.trans hown
              rfl
            let hash := (Fingerprint.start.string pkgPath).string name
            show _ ∧ Mirrors start base f
              (small.update t fun info =>
                { info with
                  shape := .named pkgPath name (some v) ms
                  layout := { info.layout with kind := (small.shape v).kind, hash } })
              (big.update (f t) fun info =>
                { info with
                  shape := .named pkgPath name (some (f v)) (ms.map (Method.renamed f))
                  layout := { info.layout with kind := (big.shape (f v)).kind, hash } })
            refine ⟨rfl, h.redeclare ht hsmall hbig rfl rfl ?_ (h.atRest t) (h.atRest' (f t)) (.inl ?_)⟩
            · intro x hx
              obtain hx | hx := List.mem_append.1 hx
              · cases List.mem_singleton.1 hx
                exact hvknown
              · exact h.knows_method ht hs x hx
            · have heven' : (big.info (f t)).layout = (small.info t).layout := heven
              dsimp only
              rw [heven', h.shape_kind_eq hvknown]

/-- A declared type that stands for no interface has corresponding methods of its own. -/
theorem own_methods (h : Mirrors start base f small big) (ht : small.Knows t) (hkind : small.kind t ≠ .interface)
    {pkgPath name : String} {bound : Option TypeId} {ms : List Method}
    (hs : small.shape t = .named pkgPath name bound ms) :
    big.shape (f t) = .named pkgPath name (bound.map f) (ms.map (Method.renamed f)) := by
  cases h.echoes ht with
  | same heq => rw [heq, hs, Shape.renamed]
  | interface hs' _ hbound =>
      refine absurd ?_ hkind
      rw [h.faithful.kind_eq_kindOf, hs', kindOf, hbound]
      rfl

/-- Corresponding declared types get corresponding methods, or the same fault. -/
theorem addMethod (h : Mirrors start base f small big) (ht : small.Knows t) {m : Method} (hm : small.Knows m.typ)
    (hkind : small.kind t ≠ .interface) :
    (TypeTable.addMethod (f t) (m.renamed f) big).1 = (TypeTable.addMethod t m small).1 ∧
      Mirrors start base f (TypeTable.addMethod t m small).2 (TypeTable.addMethod (f t) (m.renamed f) big).2 := by
  have hsmall := h.faithful.addMethod (t := t) m
  have hbig := h.faithful'.addMethod (t := f t) (m.renamed f)
  have hfunc : (big.shape (m.renamed f).typ).kind = (small.shape m.typ).kind := h.shape_kind_eq hm
  have hspell : big.spell (m.renamed f).typ = small.spell m.typ := h.spell_eq hm
  rw [addMethod_run] at hsmall hbig ⊢
  rw [addMethod_run, hfunc, hspell]
  rw [hfunc, hspell] at hbig
  cases hs : small.shape t with
  | named pkgPath name bound ms =>
      have hs' := h.own_methods ht hkind hs
      have hknown : ∀ n ∈ ms, small.Knows n.typ := fun n hn => h.knows_method ht hs _ (List.mem_map_of_mem hn)
      rw [hs] at hsmall
      rw [hs'] at hbig ⊢
      dsimp only at hsmall hbig ⊢
      by_cases hkind' : (small.shape m.typ).kind ≠ .func
      · rw [if_pos hkind', if_pos hkind']
        exact ⟨rfl, h⟩
      rw [if_neg hkind'] at hsmall hbig ⊢
      rw [if_neg hkind']
      have hfind : (ms.map (Method.renamed f)).find? (·.sameName (m.renamed f)) =
          (ms.find? (·.sameName m)).map (Method.renamed f) := List.find?_map ..
      rw [hfind] at hbig ⊢
      cases hfound : ms.find? (·.sameName m) with
      | some old =>
          have htyp : (old.renamed f).typ ≠ (m.renamed f).typ ↔ old.typ ≠ m.typ :=
            not_congr (h.eq_iff (hknown old (List.mem_of_find?_eq_some hfound)) hm)
          dsimp only [Option.map_some]
          simp only [htyp]
          split
          · exact ⟨rfl, h⟩
          · exact ⟨rfl, h⟩
      | none =>
          rw [hfound] at hsmall hbig
          let sorted := (ms ++ [m]).mergeSort Method.le
          let sorted' := (ms.map (Method.renamed f) ++ [m.renamed f]).mergeSort Method.le
          have hsorted : sorted' = sorted.map (Method.renamed f) := by
            show (ms.map (Method.renamed f) ++ [m].map (Method.renamed f)).mergeSort Method.le = _
            rw [← List.map_append]
            exact (List.map_mergeSort (f := Method.renamed f) fun _ _ _ _ => rfl).symm
          show _ ∧ Mirrors start base f (small.update t ({ · with shape := .named pkgPath name bound sorted }))
            (big.update (f t) ({ · with shape := .named pkgPath name (bound.map f) sorted' }))
          refine ⟨rfl, h.redeclare ht hsmall hbig ?_ rfl ?_ (h.atRest t) (h.atRest' (f t)) ?_⟩
          · dsimp only
            rw [hsorted, Shape.renamed]
          · intro x hx
            obtain hx | hx := List.mem_append.1 hx
            · exact h.knows_bound ht hs x hx
            · obtain ⟨n, hn, rfl⟩ := List.mem_map.1 hx
              obtain hn | hn := List.mem_append.1 (List.mem_mergeSort.1 hn)
              · exact hknown n hn
              · exact List.mem_singleton.1 hn ▸ hm
          · exact (h.paced ht).imp id (And.imp (·.redeclared hs) (·.redeclared hs'))
  | _ =>
      obtain ⟨hbuilt, hs'⟩ | ⟨_, _, _, _, _, hs', -⟩ := h.cases_shape ht
      · rw [hs', hs, ← h.spell_eq ht]
        exact ⟨rfl, h⟩
      · cases hs.symm.trans hs'

end Mirrors

end TypeTable

/-! ### Operations on tables -/

namespace TypeTable

variable {small big : TypeTable} {s : Shape} {start : Nat} {base : TypeId → Prop}

/-- The tables of a world. -/
def Matches (start : Nat) (base : TypeId → Prop) (w : World) (small big : TypeTable) : Prop :=
  small = w.types ∧ Mirrors start base w.names small big

/-- What holds of the tables of a world may be used. -/
theorem mimics_assume {α β : Type} {V : World → α → β → Prop} {m : TypeM α} {m' : TypeM β}
    (h : ∀ big, Mirrors start base w.names w.types big → Mimics (Matches start base) w V m m') :
    Mimics (Matches start base) w V m m' := by
  rintro _ big ⟨rfl, hmirrors⟩
  exact h big hmirrors _ big ⟨rfl, hmirrors⟩

/-- A new type makes a later world. -/
theorem later_update (w : World) (hgrows : Grows w.types small) (a : TypeId) :
    w.Later ⟨small, Function.update w.names ⟨w.types.types.size⟩ a⟩ := by
  refine ⟨hgrows.toExtends, fun _ => hgrows.sound, fun {t} ht => Function.update_of_ne ?_ a w.names⟩
  rintro rfl
  exact Nat.lt_irrefl _ ht

theorem twin_update (w : World) {a : TypeId} (h : small.Knows ⟨w.types.types.size⟩) :
    World.Twin ⟨small, Function.update w.names ⟨w.types.types.size⟩ a⟩ ⟨w.types.types.size⟩ a :=
  ⟨h, (Function.update_self _ a w.names).symm⟩

/-- Corresponding shapes are interned alike. -/
theorem mimics_intern (hbuilt : s.isDeclared = false) (hvalid : s ≠ .basic .invalid)
    (hknown : ∀ part ∈ s.components, w.types.Knows part) (hparts : invalid ∉ s.components)
    (hvariadic : ∀ ps rs, s = .func ps rs true → ∃ p elem, ps.getLast? = some p ∧ w.types.shape p = .slice elem) :
    Mimics (Matches start base) w (fun w' t a => w'.Twin t a ∧ w'.types.shape t = s) (intern s)
      (intern (s.renamed w.names)) := by
  rintro _ big ⟨rfl, h⟩
  obtain ⟨hgrows, hanswer⟩ := h.faithful.toSound.intern hbuilt hknown
  cases hfind : w.types.find? s with
  | some t =>
      obtain ⟨ht, hs⟩ := knows_of_find? hfind
      have hs' : big.shape (w.names t) = s.renamed w.names := by
        rw [(h.echoes ht).of_built (by rw [hs, hbuilt]), hs]
      have hfind' := h.faithful'.find?_eq hs' (h.knows ht) (by rw [Shape.isDeclared_renamed, hbuilt])
      rw [intern_found hfind, intern_found hfind']
      exact ⟨w, .refl w, ⟨rfl, h⟩, .ok ⟨⟨ht, rfl⟩, hs⟩⟩
  | none =>
      have hnew {a : TypeId} {outcome' : Except TypeFault TypeId × TypeTable}
          (hok : (intern s w.types).1 = .ok ⟨w.types.types.size⟩) (hok' : outcome'.1 = .ok a)
          (hmirrors : Mirrors start base (Function.update w.names ⟨w.types.types.size⟩ a) (intern s w.types).2
            outcome'.2) :
          ∃ w', w.Later w' ∧ Matches start base w' (intern s w.types).2 outcome'.2 ∧
            Agree (fun t a => w'.Twin t a ∧ w'.types.shape t = s) (intern s w.types).1 outcome'.1 := by
        refine ⟨_, later_update w hgrows a, ⟨rfl, hmirrors⟩, ?_⟩
        obtain ⟨hknows, hshape⟩ := hanswer _ hok
        rw [hok, hok']
        exact .ok ⟨twin_update w hknows, hshape⟩
      cases hfind' : big.find? (s.renamed w.names) with
      | some a =>
          obtain ⟨hok, hmirrors⟩ := h.intern_spare hbuilt hvalid hknown hparts hvariadic hfind hfind'
          rw [intern_found hfind']
          exact hnew hok rfl hmirrors
      | none =>
          obtain ⟨fault, hrefused, hrefused', hmirrors⟩ | ⟨a, hok, hok', hmirrors⟩ :=
            h.intern_new hbuilt hknown hvariadic hfind hfind'
          · refine ⟨⟨(intern s w.types).2, w.names⟩, ⟨hgrows.toExtends, fun _ => hgrows.sound, fun _ => rfl⟩,
              ⟨rfl, hmirrors⟩, ?_⟩
            rw [hrefused, hrefused']
            exact .error fault
          · exact hnew hok hok' hmirrors

/-- The way in which most types are built: from one or two known types that are valid. -/
theorem mimics_built (hbuilt : s.isDeclared = false) (hvalid : s ≠ .basic .invalid)
    (hparts : ∀ part ∈ s.components, w.types.Knows part ∧ part ≠ invalid)
    (hfunc : ∀ ps rs v, s ≠ .func ps rs v) :
    Mimics (Matches start base) w (fun w' t a => w'.Twin t a ∧ w'.types.shape t = s) (intern s)
      (intern (s.renamed w.names)) :=
  mimics_intern hbuilt hvalid (fun part hpart => (hparts part hpart).1) (fun hmem => (hparts _ hmem).2 rfl)
    fun ps rs heq => absurd heq (hfunc ps rs true)

theorem mimics_newArray {e : TypeId} (he : w.Twin e a) (hvalid : e ≠ invalid) (n : Nat) :
    Mimics (Matches start base) w World.Twin (newArray e n) (newArray a n) := by
  obtain ⟨hknown, rfl⟩ := he
  refine (mimics_built rfl (by simp) ?_ (by simp)).imp fun _ _ _ h => h.1
  exact fun part hpart => List.mem_singleton.1 hpart ▸ ⟨hknown, hvalid⟩

theorem mimics_newSlice {e : TypeId} (he : w.Twin e a) (hvalid : e ≠ invalid) :
    Mimics (Matches start base) w (fun w' t a => w'.Twin t a ∧ w'.types.shape t = .slice e) (newSlice e)
      (newSlice a) := by
  obtain ⟨hknown, rfl⟩ := he
  refine mimics_built rfl (by simp) ?_ (by simp)
  exact fun part hpart => List.mem_singleton.1 hpart ▸ ⟨hknown, hvalid⟩

theorem mimics_newPointer {e : TypeId} (he : w.Twin e a) (hvalid : e ≠ invalid) :
    Mimics (Matches start base) w World.Twin (newPointer e) (newPointer a) := by
  obtain ⟨hknown, rfl⟩ := he
  refine (mimics_built rfl (by simp) ?_ (by simp)).imp fun _ _ _ h => h.1
  exact fun part hpart => List.mem_singleton.1 hpart ▸ ⟨hknown, hvalid⟩

theorem mimics_newChan {e : TypeId} (he : w.Twin e a) (hvalid : e ≠ invalid) (dir : ChanDir) :
    Mimics (Matches start base) w World.Twin (newChan e dir) (newChan a dir) := by
  obtain ⟨hknown, rfl⟩ := he
  refine (mimics_built rfl (by simp) ?_ (by simp)).imp fun _ _ _ h => h.1
  exact fun part hpart => List.mem_singleton.1 hpart ▸ ⟨hknown, hvalid⟩

theorem mimics_newMap {k e : TypeId} (hk : w.Twin k a) (he : w.Twin e b) (hkey : k ≠ invalid) (hvalid : e ≠ invalid) :
    Mimics (Matches start base) w World.Twin (newMap k e) (newMap a b) := by
  obtain ⟨hknown, rfl⟩ := hk
  obtain ⟨hknown', rfl⟩ := he
  refine (mimics_built rfl (by simp) ?_ (by simp)).imp fun _ _ _ h => h.1
  intro part hpart
  obtain rfl | hpart := List.mem_cons.1 hpart
  · exact ⟨hknown, hkey⟩
  · exact List.mem_singleton.1 hpart ▸ ⟨hknown', hvalid⟩

theorem mimics_newBuiltin (name : String) (inputs outputs : Nat) (variadic : Bool) :
    Mimics (Matches start base) w World.Twin (newBuiltin name inputs outputs variadic)
      (newBuiltin name inputs outputs variadic) :=
  (mimics_built rfl (by simp) (fun _ hpart => absurd hpart List.not_mem_nil) (by simp)).imp fun _ _ _ h => h.1

/-- The last parameter of a variadic function has to be a slice. -/
theorem mimics_newFunc {ps rs as bs : List TypeId} {variadic : Bool} (hps : List.Forall₂ w.Twin ps as)
    (hrs : List.Forall₂ w.Twin rs bs) (hvalid : invalid ∉ ps ++ rs)
    (hvariadic : variadic = true → ∃ p elem, ps.getLast? = some p ∧ w.types.shape p = .slice elem) :
    Mimics (Matches start base) w World.Twin (newFunc ps rs variadic) (newFunc as bs variadic) := by
  obtain ⟨hknown, rfl⟩ := World.twins_iff.1 hps
  obtain ⟨hknown', rfl⟩ := World.twins_iff.1 hrs
  rintro _ big ⟨rfl, h⟩
  have hlast : variadic = true → ps.getLast?.map w.types.kind = some .slice := by
    intro hv
    obtain ⟨p, elem, hp, hs⟩ := hvariadic hv
    rw [hp, Option.map_some, kind, hs]
    rfl
  have hlast' : variadic = true → (ps.map w.names).getLast?.map big.kind = some .slice := by
    intro hv
    rw [← hlast hv, List.getLast?_map, Option.map_map]
    cases hp : ps.getLast? with
    | none => rfl
    | some p => exact congrArg some (h.kind_eq (hknown p (List.mem_of_getLast? hp)))
  obtain ⟨hv, hne, -⟩ | ⟨-, hrun⟩ := newFunc_cases ps rs variadic w.types
  · exact absurd (hlast hv) hne
  obtain ⟨hv, hne, -⟩ | ⟨-, hrun'⟩ := newFunc_cases (ps.map w.names) (rs.map w.names) variadic big
  · exact absurd (hlast' hv) hne
  rw [hrun, hrun']
  have hintern : Mimics (Matches start base) w (fun w' t a => w'.Twin t a ∧ w'.types.shape t = .func ps rs variadic)
      (intern (.func ps rs variadic)) (intern ((Shape.func ps rs variadic).renamed w.names)) := by
    refine mimics_intern rfl (by simp) ?_ hvalid ?_
    · exact fun part hpart => (List.mem_append.1 hpart).elim (hknown part) (hknown' part)
    · intro ps' rs' heq
      cases heq
      exact hvariadic rfl
  exact (hintern.imp fun _ _ _ h => h.1) _ _ ⟨rfl, h⟩

theorem mimics_newInterface {embedded embedded' : List TypeId} {direct direct' : List Method}
    (hembedded : List.Forall₂ w.Twin embedded embedded') (hdirect : List.Forall₂ w.TwinMethod direct direct') :
    Mimics (Matches start base) w World.Twin (newInterface embedded direct) (newInterface embedded' direct') := by
  obtain ⟨hknown, rfl⟩ := World.twins_iff.1 hembedded
  obtain ⟨hknown', rfl⟩ := World.twinMethods_iff.1 hdirect
  rintro _ big ⟨rfl, h⟩
  have hmerge := h.mergeMethods_eq hknown hknown'
  cases hms : w.types.mergeMethods embedded direct with
  | error fault =>
      rw [hms] at hmerge
      rw [newInterface_run, newInterface_run, hms, hmerge]
      exact ⟨w, .refl w, ⟨rfl, h⟩, .error fault⟩
  | ok ms =>
      rw [hms] at hmerge
      have hparts : ∀ part ∈ (Shape.interface ms).components, w.types.Knows part ∧ part ≠ invalid := by
        intro part hpart
        obtain ⟨m, hm, rfl⟩ := List.mem_map.1 hpart
        have hkind := ((mergeMethods_spec hms).2 m hm).1
        constructor
        · refine knows_of_shape_ne fun heq => ?_
          rw [heq] at hkind
          cases hkind
        · intro heq
          rw [heq, h.blank.2] at hkind
          cases hkind
      have hintern : Mimics (Matches start base) w World.Twin (intern (.interface ms))
          (intern ((Shape.interface ms).renamed w.names)) :=
        (mimics_built rfl (by simp) hparts (by simp)).imp fun _ _ _ h => h.1
      rw [newInterface_ok hms, newInterface_ok hmerge]
      exact hintern _ _ ⟨rfl, h⟩

/-- A declared type is made in both tables. -/
theorem Matches.newNamed (h : Matches start base w small big) (pkgPath name : String) :
    ∃ w', w.Later w' ∧ Matches start base w' (TypeTable.newNamed pkgPath name small).2
        (TypeTable.newNamed pkgPath name big).2 ∧
      w'.Twin (TypeTable.newNamed pkgPath name small).1 (TypeTable.newNamed pkgPath name big).1 := by
  obtain ⟨rfl, h⟩ := h
  have hgrows := (h.faithful.newNamed pkgPath name).toGrows
  exact ⟨_, later_update w hgrows ⟨big.types.size⟩, ⟨rfl, h.newNamed pkgPath name⟩,
    twin_update w (knows_pushed.2 (.inl rfl))⟩

/-- What makes no type leaves the handles as they are. -/
theorem mimics_of_mirrors {α : Type} {m m' : TypeM α}
    (h : ∀ big, Mirrors start base w.names w.types big → Grows w.types (m w.types).2 ∧ (m' big).1 = (m w.types).1 ∧
      Mirrors start base w.names (m w.types).2 (m' big).2) : Mimics (Matches start base) w (fun _ => Eq) m m' := by
  rintro _ big ⟨rfl, hmirrors⟩
  obtain ⟨hgrows, houtcome, hmirrors'⟩ := h big hmirrors
  refine ⟨⟨(m w.types).2, w.names⟩, ⟨hgrows.toExtends, fun _ => hgrows.sound, fun _ => rfl⟩, ⟨rfl, hmirrors'⟩, ?_⟩
  rw [houtcome]
  cases (m w.types).1 with
  | ok x => exact .ok rfl
  | error fault => exact .error fault

theorem mimics_setUnderlying (ht : w.Twin t a) (hu : w.Twin u b) :
    Mimics (Matches start base) w (fun _ => Eq) (setUnderlying t u) (setUnderlying a b) := by
  obtain ⟨ht, rfl⟩ := ht
  obtain ⟨hu, rfl⟩ := hu
  exact mimics_of_mirrors fun big h => ⟨(h.faithful.setUnderlying hu).toGrows, h.setUnderlying ht hu⟩

theorem mimics_addMethod {m m' : Method} (ht : w.Twin t a) (hm : w.TwinMethod m m')
    (hkind : w.types.kind t ≠ .interface) :
    Mimics (Matches start base) w (fun _ => Eq) (addMethod t m) (addMethod a m') := by
  obtain ⟨ht, rfl⟩ := ht
  obtain ⟨hm, rfl⟩ := hm
  exact mimics_of_mirrors fun big h => ⟨(h.faithful.addMethod m).toGrows, h.addMethod ht hm hkind⟩

theorem mimics_completed (ht : w.Twin t a) :
    Mimics (Matches start base) w (fun _ => Eq) (liftM (completed t) : TypeM Layout) (liftM (completed a)) := by
  obtain ⟨ht, rfl⟩ := ht
  refine mimics_of_mirrors fun big h => ⟨(refining_complete t _ h.faithful).grows h.faithful.toSound, ?_⟩
  obtain ⟨heq, htracks, hsmall, hbig⟩ :=
    Tracks.completed ht w.types big ⟨h.toTracks, .refl h.faithful, .refl h.faithful'⟩
  exact ⟨congrArg Except.ok heq, h.of_refines htracks hsmall hbig⟩

end TypeTable

end GoSource
