import GoSource.Proofs.Typing.Renaming

/-!
# Types that are alike in two tables

Two tables that have come about in different ways can hold the same types, under handles that have nothing to do with
each other.  Such types are built alike, and so they are spelled alike.

* **`Shape.form`**: a shape without its handles.  **`Shape.eq_of_form`**: what is lost are the parts only.
* **`Shape.Corresponds`**: shapes that differ in their handles only, where the parts correspond.
* **`Likens R`**: types that `R` relates are built alike, of parts that it relates.
* **`Likens.spell_eq`**: related types are spelled alike.
-/

namespace GoSource

/-! ### Forms -/

/-- A shape without the handles of its parts. -/
def Shape.form (s : Shape) : Shape :=
  s.renamed fun _ => TypeTable.invalid

/-- A method without the handle of its type. -/
def Method.form (m : Method) : Method :=
  m.renamed fun _ => TypeTable.invalid

/-- Methods of the same name, with types that correspond. -/
structure Method.Corresponds (R : TypeId → TypeId → Prop) (m m' : Method) : Prop where
  name_eq : m.name = m'.name
  pkgPath_eq : m.pkgPath = m'.pkgPath
  typ : R m.typ m'.typ

/-- Shapes that differ in their handles only, where the parts correspond.  What a declared type stands for, and its
methods, do not count. -/
inductive Shape.Corresponds (R : TypeId → TypeId → Prop) : Shape → Shape → Prop
  | basic (k : Kind) : Corresponds R (.basic k) (.basic k)
  | array {e e' : TypeId} (n : Nat) (he : R e e') : Corresponds R (.array e n) (.array e' n)
  | slice {e e' : TypeId} (he : R e e') : Corresponds R (.slice e) (.slice e')
  | pointer {e e' : TypeId} (he : R e e') : Corresponds R (.pointer e) (.pointer e')
  | chan {e e' : TypeId} (d : ChanDir) (he : R e e') : Corresponds R (.chan e d) (.chan e' d)
  | map {k k' e e' : TypeId} (hk : R k k') (he : R e e') : Corresponds R (.map k e) (.map k' e')
  | func {ps ps' rs rs' : List TypeId} (v : Bool) (hps : List.Forall₂ R ps ps') (hrs : List.Forall₂ R rs rs') :
      Corresponds R (.func ps rs v) (.func ps' rs' v)
  | interface {ms ms' : List Method} (hms : List.Forall₂ (Method.Corresponds R) ms ms') :
      Corresponds R (.interface ms) (.interface ms')
  | builtin (name : String) (inputs outputs : Nat) (v : Bool) :
      Corresponds R (.builtin name inputs outputs v) (.builtin name inputs outputs v)
  | named (pkgPath name : String) (bound bound' : Option TypeId) (ms ms' : List Method) :
      Corresponds R (.named pkgPath name bound ms) (.named pkgPath name bound' ms')

namespace Shape

variable {R : TypeId → TypeId → Prop} {s s' : Shape}

@[simp] theorem kind_form (s : Shape) : s.form.kind = s.kind :=
  kind_renamed s

@[simp] theorem form_renamed (f : TypeId → TypeId) (s : Shape) : (s.renamed f).form = s.form := by
  cases s <;> simp [form, renamed, Method.renamed, Function.comp_def]

theorem form_eq_const {α β : Type} {xs : List α} {ys : List β} (h : xs.length = ys.length) :
    xs.map (fun _ => TypeTable.invalid) = ys.map fun _ => TypeTable.invalid := by
  rw [List.map_const', List.map_const', h]

theorem methods_correspond {ms ms' : List Method} (hforms : ms.map Method.form = ms'.map Method.form)
    (htypes : List.Forall₂ R (ms.map Method.typ) (ms'.map Method.typ)) :
    List.Forall₂ (Method.Corresponds R) ms ms' := by
  rw [List.forall₂_map_left_iff, List.forall₂_map_right_iff] at htypes
  induction htypes with
  | nil => exact .nil
  | cons hfirst _ ih =>
      obtain ⟨hform, hforms⟩ := List.cons.inj hforms
      simp only [Method.form, Method.renamed, Method.mk.injEq] at hform
      exact .cons ⟨hform.1, hform.2.1, hfirst⟩ (ih hforms)

/-- Built types of the same form are alike, if their parts are. -/
theorem corresponds_of_form (hbuilt : s.isDeclared = false) (hform : s.form = s'.form)
    (hparts : List.Forall₂ R s.components s'.components) : s.Corresponds R s' := by
  cases s with
  | named => cases hbuilt
  | func ps rs v =>
      cases s' with
      | func ps' rs' v' =>
          simp only [form, renamed, Shape.func.injEq] at hform
          obtain ⟨hps, -, rfl⟩ := hform
          have hlength : ps.length = ps'.length := by simpa using congrArg List.length hps
          have htake := List.forall₂_take ps.length hparts
          have hdrop := List.forall₂_drop ps.length hparts
          simp only [components, List.take_left, List.drop_left] at htake hdrop
          rw [hlength, List.take_left] at htake
          rw [hlength, List.drop_left] at hdrop
          exact .func v htake hdrop
      | _ => cases hform
  | interface ms =>
      cases s' with
      | interface ms' =>
          simp only [form, renamed, Shape.interface.injEq] at hform
          exact .interface (methods_correspond hform hparts)
      | _ => cases hform
  | map =>
      cases s' with
      | map =>
          obtain _ | ⟨hk, he⟩ := hparts
          obtain _ | ⟨he, _⟩ := he
          exact .map hk he
      | _ => cases hform
  | basic | builtin =>
      cases s' <;> cases hform
      constructor
  | array | slice | pointer | chan =>
      cases s' <;> cases hform
      obtain _ | ⟨he, _⟩ := hparts
      constructor
      exact he

/-- A built type is known by its form and its parts. -/
theorem eq_of_form (hbuilt : s.isDeclared = false) (hform : s.form = s'.form)
    (hparts : s.components = s'.components) : s = s' := by
  have hshapes : s.Corresponds Eq s' := corresponds_of_form hbuilt hform (by rw [hparts, List.forall₂_eq_eq_eq])
  cases hshapes with
  | basic | builtin => rfl
  | array | slice | pointer | chan | map => simp_all
  | func v hps hrs =>
      rw [List.forall₂_eq_eq_eq] at hps hrs
      rw [hps, hrs]
  | interface hms =>
      congr 1
      rw [← List.forall₂_eq_eq_eq]
      refine hms.imp fun m m' hm => ?_
      obtain ⟨hname, hpath, htyp⟩ := hm
      cases m
      cases m'
      simp_all
  | named => cases hbuilt

theorem Corresponds.kind_eq (h : s.Corresponds R s') : s'.kind = s.kind := by
  cases h <;> rfl

end Shape

namespace TypeTable

variable {tt tt' : TypeTable} {R : TypeId → TypeId → Prop} {t t' : TypeId} {n n' : Nat}

/-- A variadic function ends in a slice, and not in a declared type that stands for one. -/
def Spreads (tt : TypeTable) (s : Shape) : Prop :=
  ∀ ps rs, s = .func ps rs true → ∃ p e, ps.getLast? = some p ∧ tt.shape p = .slice e

theorem Spreads.later {s : Shape} (h : tt.Spreads s) (hext : Extends tt tt') : tt'.Spreads s := by
  intro ps rs hs
  obtain ⟨p, e, hp, hslice⟩ := h ps rs hs
  exact ⟨p, e, hp, hext.shape_of_built hslice rfl (by simp)⟩

/-- Types that `R` relates are built alike, of parts that it relates and that were made before them. -/
structure Likens (R : TypeId → TypeId → Prop) (tt tt' : TypeTable) : Prop where
  ordered : ∀ t, ∀ part ∈ (tt.shape t).components, part.index < t.index
  ordered' : ∀ t, ∀ part ∈ (tt'.shape t).components, part.index < t.index
  corresponds : ∀ t t', R t t' → (tt.shape t).Corresponds R (tt'.shape t')
  spreads : ∀ t t', R t t' → tt.Spreads (tt.shape t)

/-! ### Spelling -/

/-- Lists that correspond have the same image, if entries that correspond have. -/
theorem map_eq_of_forall₂ {α β γ : Type} {R : α → β → Prop} {f : α → γ} {g : β → γ} {xs : List α} {ys : List β}
    (h : List.Forall₂ R xs ys) (heq : ∀ x ∈ xs, ∀ y ∈ ys, R x y → f x = g y) : xs.map f = ys.map g := by
  induction h with
  | nil => rw [List.map_nil, List.map_nil]
  | cons hfirst _ ih =>
      rw [List.map_cons, List.map_cons, heq _ List.mem_cons_self _ List.mem_cons_self hfirst,
        ih fun x hx y hy => heq x (List.mem_cons_of_mem _ hx) y (List.mem_cons_of_mem _ hy)]

/-- Related types are written alike, of those that were made before `n` in the one table and before `n'` in the
other. -/
def WrittenAlike (R : TypeId → TypeId → Prop) (n n' : Nat) (spell spell' : TypeId → String) : Prop :=
  ∀ t t', R t t' → t.index < n → t'.index < n' → spell t = spell' t'

variable {spell spell' : TypeId → String}

theorem WrittenAlike.map_eq {ts ts' : List TypeId} (h : WrittenAlike R n n' spell spell')
    (hts : List.Forall₂ R ts ts') (hlt : ∀ t ∈ ts, t.index < n) (hlt' : ∀ t ∈ ts', t.index < n') :
    ts.map spell = ts'.map spell' :=
  map_eq_of_forall₂ hts fun t ht t' ht' hR => h t t' hR (hlt t ht) (hlt' t' ht')

/-- What holds below a type holds below its parts. -/
theorem WrittenAlike.below (h : WrittenAlike R n n' spell spell') (hlt : t.index < n) (hlt' : t'.index < n') :
    WrittenAlike R t.index t'.index spell spell' :=
  fun x x' hx hlow hlow' => h x x' hx (Nat.lt_trans hlow hlt) (Nat.lt_trans hlow' hlt')

namespace Likens

variable (h : Likens R tt tt')
include h

/-- A channel in a channel is put in parentheses in both tables. -/
theorem parenthesized_iff (ht : R t t') :
    tt.chanDir? t = some .recv ∧ !tt.isNamed t ↔ tt'.chanDir? t' = some .recv ∧ !tt'.isNamed t' := by
  have hshapes := h.corresponds t t' ht
  simp only [chanDir?, underlyingShape?, underlying?, isNamed]
  generalize hs : tt.shape t = s, hs' : tt'.shape t' = s' at hshapes
  cases hshapes <;> simp [hs, hs']

theorem spellParams_eq (hspell : WrittenAlike R n n' spell spell') {ps ps' : List TypeId} {v : Bool}
    (hps : List.Forall₂ R ps ps') (hlt : ∀ p ∈ ps, p.index < n) (hlt' : ∀ p ∈ ps', p.index < n')
    (hspreads : v = true → ∃ p e, ps.getLast? = some p ∧ tt.shape p = .slice e) :
    tt.spellParams spell v ps = tt'.spellParams spell' v ps' := by
  induction hps with
  | nil => rfl
  | @cons p p' ps ps' hp hrest ih =>
      have hfirst := hspell p p' hp (hlt p List.mem_cons_self) (hlt' p' List.mem_cons_self)
      cases hrest with
      | nil =>
          cases v with
          | false => simp only [spellParams, hfirst]
          | true =>
              obtain ⟨_, e, hlast, hs⟩ := hspreads rfl
              rw [List.getLast?_singleton] at hlast
              cases hlast
              have hshapes := h.corresponds p p' hp
              rw [hs] at hshapes
              generalize hs' : tt'.shape p' = s' at hshapes
              obtain _ | _ | ⟨he⟩ := hshapes
              next e' =>
              have helem : tt.elem? p = some e := by simp [elem?, underlyingShape?, underlying?, hs]
              have helem' : tt'.elem? p' = some e' := by simp [elem?, underlyingShape?, underlying?, hs']
              have hlow : e.index < p.index := h.ordered p e (by simp [hs, Shape.components])
              have hlow' : e'.index < p'.index := h.ordered' p' e' (by simp [hs', Shape.components])
              simp only [spellParams, helem, helem',
                hspell e e' he (Nat.lt_trans hlow (hlt p List.mem_cons_self))
                  (Nat.lt_trans hlow' (hlt' p' List.mem_cons_self))]
      | cons =>
          simp only [spellParams, hfirst]
          rw [ih (fun p hp => hlt p (List.mem_cons_of_mem _ hp)) (fun p hp => hlt' p (List.mem_cons_of_mem _ hp))
            hspreads]

theorem spellSignature_eq (ht : R t t') (hspell : WrittenAlike R t.index t'.index spell spell')
    {ps ps' rs rs' : List TypeId} {v : Bool} (hs : tt.shape t = .func ps rs v) (hs' : tt'.shape t' = .func ps' rs' v)
    (hps : List.Forall₂ R ps ps') (hrs : List.Forall₂ R rs rs') :
    tt.spellSignature spell ps rs v = tt'.spellSignature spell' ps' rs' v := by
  have hlow : ∀ p ∈ ps ++ rs, p.index < t.index := fun p hp => h.ordered t p (by rwa [hs])
  have hlow' : ∀ p ∈ ps' ++ rs', p.index < t'.index := fun p hp => h.ordered' t' p (by rwa [hs'])
  have hresults : rs.map spell = rs'.map spell' :=
    hspell.map_eq hrs (fun r hr => hlow r (List.mem_append_right _ hr)) fun r hr => hlow' r (List.mem_append_right _ hr)
  have hparams : tt.spellParams spell v ps = tt'.spellParams spell' v ps' := by
    refine h.spellParams_eq hspell hps (fun p hp => hlow p (List.mem_append_left _ hp))
      (fun p hp => hlow' p (List.mem_append_left _ hp)) fun hv => ?_
    exact h.spreads t t' ht ps rs (hv ▸ hs)
  unfold spellSignature
  rw [hparams]
  cases hrs with
  | nil => rfl
  | @cons r r' _ _ _ hrest =>
      cases hrest with
      | nil =>
          have hr : spell r = spell' r' := List.singleton_inj.1 hresults
          simp only [hr]
      | cons => simp only [hresults]

theorem spellMethod_eq {m m' : Method} (hm : m.Corresponds R m') (hspell : WrittenAlike R n n' spell spell')
    (hlt : m.typ.index < n) (hlt' : m'.typ.index < n') (full : Bool) :
    tt.spellMethod spell full m = tt'.spellMethod spell' full m' := by
  obtain ⟨hname, hpath, ht⟩ := hm
  have htyp := hspell _ _ ht hlt hlt'
  have hshapes := h.corresponds _ _ ht
  rw [spellMethod, spellMethod, Method.qualifiedName, Method.qualifiedName, hname, hpath]
  congr 1
  generalize hs : tt.shape m.typ = s, hs' : tt'.shape m'.typ = s' at hshapes
  cases hshapes with
  | func v hps hrs => exact h.spellSignature_eq ht (hspell.below hlt hlt') hs hs' hps hrs
  | _ => exact htyp

theorem spellShape_eq (ht : R t t') (hspell : WrittenAlike R t.index t'.index spell spell') (full : Bool) :
    tt.spellShape spell full (tt.shape t) = tt'.spellShape spell' full (tt'.shape t') := by
  have hpart (x x' : TypeId) (hx : x ∈ (tt.shape t).components) (hx' : x' ∈ (tt'.shape t').components)
      (hR : R x x') : spell x = spell' x' :=
    hspell x x' hR (h.ordered t x hx) (h.ordered' t' x' hx')
  have hshapes := h.corresponds t t' ht
  generalize hs : tt.shape t = s, hs' : tt'.shape t' = s' at hshapes
  rw [hs, hs'] at hpart
  cases hshapes with
  | basic | builtin | named => rfl
  | array _ he | slice he | pointer he =>
      simp only [spellShape, hpart _ _ List.mem_cons_self List.mem_cons_self he]
  | chan _ he =>
      simp only [spellShape, hpart _ _ List.mem_cons_self List.mem_cons_self he, h.parenthesized_iff he]
  | map hk he =>
      simp only [spellShape, hpart _ _ List.mem_cons_self List.mem_cons_self hk,
        hpart _ _ (List.mem_cons_of_mem _ List.mem_cons_self) (List.mem_cons_of_mem _ List.mem_cons_self) he]
  | func v hps hrs => simp only [spellShape, h.spellSignature_eq ht hspell hs hs' hps hrs]
  | @interface ms ms' hms =>
      have hlow : ∀ m ∈ ms, m.typ.index < t.index := fun m hm =>
        h.ordered t _ (by rw [hs]; exact List.mem_map_of_mem hm)
      have hlow' : ∀ m ∈ ms', m.typ.index < t'.index := fun m hm =>
        h.ordered' t' _ (by rw [hs']; exact List.mem_map_of_mem hm)
      have hmethods : ms.map (tt.spellMethod spell full) = ms'.map (tt'.spellMethod spell' full) :=
        map_eq_of_forall₂ hms fun m hm m' hm' h' => h.spellMethod_eq h' hspell (hlow m hm) (hlow' m' hm') full
      cases hms with
      | nil => rfl
      | cons => simp only [spellShape, hmethods]

/-- Related types are spelled alike. -/
theorem spell_eq (ht : R t t') : tt.spell t = tt'.spell t' := by
  induction hn : t.index using Nat.strongRecOn generalizing t t' with
  | _ n ih =>
      subst hn
      rw [TypeTable.spell, TypeTable.spell]
      refine h.spellShape_eq ht (fun x x' hx hlt hlt' => ?_) true
      rw [if_pos hlt, if_pos hlt']
      exact ih x.index hlt hx rfl

end Likens

end TypeTable

end GoSource
