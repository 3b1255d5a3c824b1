import GoSource.Typing.Construct
import Mathlib.Data.List.Basic

/-!
# What completion leaves alone

Completing a type computes layouts and nothing else: the types stay as many as they are, each is built as before,
and a layout is of the kind of its type.

* **`Leads`**: the table after an operation is related to the table before it.
* **`Relaid`**: only layouts changed, and kinds are still right if they were.
* **`leads_complete`**, **`leads_layout`**: completion and the layouts of shapes.
-/

namespace GoSource.TypeTable

variable {α β : Type}

/-! ### Operations and relations between tables -/

/-- Whatever an operation answers, the table after it is related to the table before. -/
def Leads (R : TypeTable → TypeTable → Prop) (m : TableM α) : Prop :=
  ∀ tt, R tt (m tt).2

/-- A relation that holds of doing nothing, and of two changes if it holds of each. -/
structure Composes (R : TypeTable → TypeTable → Prop) : Prop where
  refl : ∀ tt, R tt tt
  trans : ∀ {tt tt' tt''}, R tt tt' → R tt' tt'' → R tt tt''

section Leads

variable {R : TypeTable → TypeTable → Prop} (hR : Composes R)
include hR

theorem leads_pure (x : α) : Leads R (pure x) :=
  fun tt => hR.refl tt

theorem leads_bind {m : TableM α} {f : α → TableM β} (hm : Leads R m) (hf : ∀ x, Leads R (f x)) :
    Leads R (m >>= f) :=
  fun tt => hR.trans (hm tt) (hf _ _)

theorem leads_forM {f : α → TableM PUnit} (hf : ∀ x, Leads R (f x)) (xs : List α) : Leads R (xs.forM f) := by
  induction xs with
  | nil => exact leads_pure hR _
  | cons x xs ih => exact leads_bind hR (hf x) fun _ => ih

/-- An operation that can be refused goes on only if it was not. -/
theorem leads_except_bind {m : TypeM α} {f : α → TypeM β} (hm : Leads R m.run) (hf : ∀ x, Leads R (f x).run) :
    Leads R (m >>= f).run := by
  rw [ExceptT.run_bind]
  refine leads_bind hR hm ?_
  rintro (fault | x)
  · exact leads_pure hR _
  · exact hf x

theorem leads_lift {m : TableM α} (hm : Leads R m) : Leads R (liftM m : TypeM α).run :=
  leads_bind hR hm fun _ => leads_pure hR _

theorem leads_mapM {f : α → TypeM β} (hf : ∀ x, Leads R (f x).run) (xs : List α) : Leads R (xs.mapM f).run := by
  induction xs with
  | nil => exact leads_pure hR _
  | cons x xs ih =>
      rw [List.mapM_cons]
      exact leads_except_bind hR (hf x) fun _ => leads_except_bind hR ih fun _ => leads_pure hR _

/-- The digest of methods asks for the types of the methods and does nothing else. -/
theorem leads_methods {query : TypeId → TableM Layout} (hquery : ∀ t, Leads R (query t)) (ms : List Method)
    (h : Fingerprint) : Leads R (h.methods query ms) := by
  induction ms generalizing h with
  | nil => exact leads_pure hR _
  | cons m ms ih =>
      refine leads_bind hR (hquery m.typ) fun l => ?_
      dsimp only
      split
      · exact leads_pure hR _
      · exact ih _

/-- The layout of a shape asks for the layouts of its parts and does nothing else. -/
theorem leads_layout {query : TypeId → TableM Layout} (hquery : ∀ t, Leads R (query t)) (target : Target)
    (s : Shape) : Leads R (s.layout target query).run := by
  cases s with
  | basic | named | builtin => exact leads_pure hR _
  | slice e | pointer e | chan e d =>
      exact leads_except_bind hR (leads_lift hR (hquery e)) fun _ => leads_pure hR _
  | map k e =>
      exact leads_except_bind hR (leads_lift hR (hquery k)) fun _ =>
        leads_except_bind hR (leads_lift hR (hquery e)) fun _ => leads_pure hR _
  | func ps rs v =>
      exact leads_except_bind hR (leads_mapM hR (fun t => leads_lift hR (hquery t)) _) fun _ => leads_pure hR _
  | interface ms =>
      exact leads_except_bind hR (leads_lift hR (leads_methods hR hquery ms _)) fun _ => leads_pure hR _
  | array e n =>
      rw [Shape.layout]
      split
      · exact leads_pure hR _
      · refine leads_except_bind hR (leads_lift hR (hquery e)) fun l => ?_
        cases l.array target n with
        | ok => exact leads_pure hR _
        | error => exact leads_pure hR _

end Leads

/-! ### Kinds of layouts -/

/-- The kind that a type of a given shape has. -/
def kindOf (tt : TypeTable) : Shape → Kind
  | .named _ _ (some u) _ => (tt.shape u).kind
  | s => s.kind

/-- Layouts are of the kinds of their types, and no declared type stands for another one. -/
structure Kinded (tt : TypeTable) : Prop where
  kind_eq : ∀ t, (tt.layout t).kind = tt.kindOf (tt.shape t)
  bound : ∀ {t pkgPath name u ms}, tt.shape t = .named pkgPath name (some u) ms → (tt.shape u).isDeclared = false

theorem kindOf_of_built {tt : TypeTable} {s : Shape} (h : s.isDeclared = false) : tt.kindOf s = s.kind := by
  cases s with
  | named => cases h
  | _ => rfl

/-- An operation that is granted hands its answer on. -/
theorem run_granted {m : TypeM α} {f : α → TypeM β} {tt tt' : TypeTable} {x : α} (h : m tt = (.ok x, tt')) :
    (m >>= f) tt = f x tt' := by
  show (match m tt with | (a, s) => ExceptT.bindCont f a s) = f x tt'
  rw [h]
  rfl

/-- An operation that is refused ends the work. -/
theorem run_refused {m : TypeM α} {f : α → TypeM β} {tt tt' : TypeTable} {fault : TypeFault}
    (h : m tt = (.error fault, tt')) : (m >>= f) tt = (.error fault, tt') := by
  show (match m tt with | (a, s) => ExceptT.bindCont f a s) = (.error fault, tt')
  rw [h]
  rfl

theorem eq_ok_of_toOption {outcome : Except TypeFault α} {x : α} (h : outcome.toOption = some x) :
    outcome = .ok x := by
  cases outcome with
  | error => cases h
  | ok y =>
      cases h
      rfl

theorem granted_of_toOption {m : TypeM α} {tt : TypeTable} {x : α} (h : (m tt).1.toOption = some x) :
    m tt = (.ok x, (m tt).2) :=
  Prod.ext (eq_ok_of_toOption h) rfl

/-- What an operation answers, if it is not refused, has a given property. -/
def Answers (P : α → Prop) (m : TypeM α) : Prop :=
  ∀ tt x, (m.run tt).1 = .ok x → P x

theorem answers_pure {P : α → Prop} {x : α} (h : P x) : Answers P (pure x) := by
  intro tt y hy
  cases hy
  exact h

theorem answers_throw {P : α → Prop} (fault : TypeFault) : Answers P (throw fault : TypeM α) := by
  intro tt y hy
  cases hy

theorem answers_bind {P : β → Prop} {m : TypeM α} {f : α → TypeM β} (hf : ∀ x, Answers P (f x)) :
    Answers P (m >>= f) := by
  intro tt y hy
  cases hm : m tt with
  | mk outcome tt' =>
      cases outcome with
      | error e =>
          have hrun := run_refused (f := f) hm
          rw [ExceptT.run, hrun] at hy
          cases hy
      | ok x =>
          have hrun := run_granted (f := f) hm
          rw [ExceptT.run, hrun] at hy
          exact hf x tt' y hy

/-- An operation that is never refused. -/
def Granted (m : TypeM α) : Prop :=
  ∀ tt, ∃ x tt', m tt = (.ok x, tt')

theorem granted_pure (x : α) : Granted (pure x) :=
  fun tt => ⟨x, tt, rfl⟩

theorem granted_lift (m : TableM α) : Granted (liftM m : TypeM α) :=
  fun tt => ⟨(m tt).1, (m tt).2, rfl⟩

theorem granted_bind {m : TypeM α} {f : α → TypeM β} (hm : Granted m) (hf : ∀ x, Granted (f x)) :
    Granted (m >>= f) := by
  intro tt
  obtain ⟨x, tt', hrun⟩ := hm tt
  rw [run_granted hrun]
  exact hf x tt'

theorem granted_mapM {f : α → TypeM β} (hf : ∀ x, Granted (f x)) (xs : List α) : Granted (xs.mapM f) := by
  induction xs with
  | nil => exact granted_pure _
  | cons x xs ih =>
      rw [List.mapM_cons]
      exact granted_bind (hf x) fun _ => granted_bind ih fun _ => granted_pure _

/-- Only arrays can be refused. -/
theorem granted_layout (query : TypeId → TableM Layout) (target : Target) {s : Shape}
    (h : ∀ e n, s ≠ .array e n) : Granted (s.layout target query) := by
  cases s with
  | basic | named | builtin => exact granted_pure _
  | slice | pointer | chan => exact granted_bind (granted_lift _) fun _ => granted_pure _
  | map => exact granted_bind (granted_lift _) fun _ => granted_bind (granted_lift _) fun _ => granted_pure _
  | func => exact granted_bind (granted_mapM (fun _ => granted_lift _) _) fun _ => granted_pure _
  | interface => exact granted_bind (granted_lift _) fun _ => granted_pure _
  | array e n => exact absurd rfl (h e n)

theorem kind_basicLayout (target : Target) (k : Kind) : (k.layout target).kind = k := by
  rw [Kind.layout]
  split
  · next h => rw [h]
  · rfl

/-- The layout of a shape is of its kind. -/
theorem kind_layout (query : TypeId → TableM Layout) (target : Target) (s : Shape) :
    Answers (fun l => l.kind = s.kind) (s.layout target query) := by
  cases s with
  | basic k => exact answers_pure (kind_basicLayout target k)
  | named | builtin => exact answers_pure rfl
  | slice | pointer | chan | func | interface => exact answers_bind fun _ => answers_pure rfl
  | map => exact answers_bind fun _ => answers_bind fun _ => answers_pure rfl
  | array e n =>
      rw [Shape.layout]
      split
      · exact answers_throw _
      · refine answers_bind fun l => ?_
        rw [Layout.array]
        split
        · exact answers_throw _
        · exact answers_pure rfl

/-- The tables have the same types; layouts may differ, and are of the right kinds if they were before. -/
structure Relaid (tt tt' : TypeTable) : Prop where
  target_eq : tt'.target = tt.target
  size_eq : tt'.types.size = tt.types.size
  shape_eq : ∀ t, tt'.shape t = tt.shape t
  kinded : tt.Kinded → tt'.Kinded

theorem composes_relaid : Composes Relaid where
  refl _ := ⟨rfl, rfl, fun _ => rfl, id⟩
  trans h h' := ⟨h'.target_eq.trans h.target_eq, h'.size_eq.trans h.size_eq,
    fun t => (h'.shape_eq t).trans (h.shape_eq t), h'.kinded ∘ h.kinded⟩

theorem Relaid.kindOf_eq {tt tt' : TypeTable} (h : Relaid tt tt') (s : Shape) : tt'.kindOf s = tt.kindOf s := by
  unfold kindOf
  split
  · rw [h.shape_eq]
  · rfl

/-- A handle that the table has given out. -/
def Knows (tt : TypeTable) (t : TypeId) : Prop :=
  t.index < tt.types.size

instance (tt : TypeTable) (t : TypeId) : Decidable (tt.Knows t) :=
  inferInstanceAs (Decidable (_ < _))

theorem info_of_not_knows {tt : TypeTable} {t : TypeId} (h : ¬tt.Knows t) : tt.info t = { shape := .basic .invalid } := by
  rw [info, Array.getElem?_eq_none (Nat.not_lt.1 h)]
  rfl

theorem eq_of_index {t u : TypeId} (h : t.index = u.index) : t = u := by
  cases t
  cases u
  exact congrArg TypeId.mk h

theorem info_update (tt : TypeTable) (t s : TypeId) (f : TypeInfo → TypeInfo) :
    (tt.update t f).info s = if s = t ∧ tt.Knows t then f (tt.info t) else tt.info s := by
  simp only [info, update, Array.getElem?_modify, Knows]
  by_cases hst : s = t
  · subst hst
    by_cases hs : s.index < tt.types.size
    · simp [hs]
    · simp [hs]
  · have hne : t.index ≠ s.index := fun h => hst (eq_of_index h.symm)
    simp [hst, hne]

/-- Recording something else than the shape, of the same kind. -/
theorem relaid_update {tt : TypeTable} {t : TypeId} {f : TypeInfo → TypeInfo}
    (hshape : ∀ info, (f info).shape = info.shape)
    (hkind : tt.Kinded → (f (tt.info t)).layout.kind = tt.kindOf (tt.shape t)) : Relaid tt (tt.update t f) := by
  have hshapes (s : TypeId) : (tt.update t f).shape s = tt.shape s := by
    rw [shape, info_update]
    split
    · next h => rw [hshape, h.1, shape]
    · rfl
  have hkindOf (s : Shape) : (tt.update t f).kindOf s = tt.kindOf s := by
    unfold kindOf
    split
    · rw [hshapes]
    · rfl
  refine ⟨rfl, by simp [update], hshapes, ?_⟩
  intro h
  refine ⟨?_, ?_⟩
  · intro s
    rw [hshapes, hkindOf, layout, info_update]
    split
    · next hs => rw [hkind h, hs.1]
    · exact h.kind_eq s
  · intro s pkgPath name u ms hs
    rw [hshapes] at hs ⊢
    exact h.bound hs

/-! ### Completion -/

/-- Nothing is known about a declared type that stands for nothing. -/
theorem computeLayout_unbound {complete : TypeId → TableM Unit} {t : TypeId} {tt : TypeTable} {pkgPath name : String}
    {ms : List Method} (h : tt.shape t = .named pkgPath name none ms) : computeLayout complete t tt = (none, tt) := by
  show (computeLayout complete t).run tt = _
  simp only [computeLayout, StateT.run_bind, StateT.run_get, pure_bind, h]
  rfl

/-- The layout of a declared type is that of what it stands for. -/
theorem computeLayout_bound {complete : TypeId → TableM Unit} {t u : TypeId} {tt : TypeTable} {pkgPath name : String}
    {ms : List Method} (h : tt.shape t = .named pkgPath name (some u) ms) :
    computeLayout complete t tt =
      (some { (complete u tt).2.layout u with hash := ((complete u tt).2.layout t).hash }, (complete u tt).2) := by
  show (computeLayout complete t).run tt = _
  simp only [computeLayout, StateT.run_bind, StateT.run_get, pure_bind, h]
  rfl

/-- The layout of a built type follows from those of its parts. -/
theorem computeLayout_built {complete : TypeId → TableM Unit} {t : TypeId} {tt : TypeTable}
    (h : (tt.shape t).isDeclared = false) :
    computeLayout complete t tt = (do
      (tt.shape t).components.forM complete
      let outcome ← ((tt.shape t).layout tt.target fun part => do
        complete part
        return (← get).layout part).run
      pure outcome.toOption : TableM (Option Layout)) tt := by
  show (computeLayout complete t).run tt = _
  simp only [computeLayout, StateT.run_bind, StateT.run_get, pure_bind]
  cases hs : tt.shape t with
  | named =>
      rw [hs] at h
      cases h
  | _ => rfl

/-- A computed layout is of the kind of its type. -/
theorem relaid_computeLayout {complete : TypeId → TableM Unit} (hcomplete : ∀ t, Leads Relaid (complete t))
    (t : TypeId) (tt : TypeTable) :
    Relaid tt (computeLayout complete t tt).2 ∧
      ∀ l, (computeLayout complete t tt).1 = some l → (computeLayout complete t tt).2.Kinded →
        l.kind = tt.kindOf (tt.shape t) := by
  cases hdeclared : (tt.shape t).isDeclared with
  | false =>
      rw [computeLayout_built hdeclared, kindOf_of_built hdeclared]
      constructor
      · refine leads_bind composes_relaid (leads_forM composes_relaid hcomplete _) (fun _ => ?_) tt
        refine leads_bind composes_relaid (leads_layout composes_relaid (fun part => ?_) _ _) fun _ =>
          leads_pure composes_relaid _
        exact leads_bind composes_relaid (hcomplete part) fun _ tt => composes_relaid.refl tt
      · intro l hl _
        have hparts : Except.toOption (((tt.shape t).layout tt.target fun part => do
            complete part
            return (← get).layout part).run (((tt.shape t).components.forM complete) tt).2).1 = some l := hl
        exact kind_layout _ _ _ _ l (eq_ok_of_toOption hparts)
  | true =>
      cases hs : tt.shape t with
      | named pkgPath name bound ms =>
          cases bound with
          | none =>
              rw [computeLayout_unbound hs]
              refine ⟨composes_relaid.refl tt, ?_⟩
              intro l hl
              cases hl
          | some u =>
              have hrelaid := hcomplete u tt
              rw [computeLayout_bound hs]
              refine ⟨hrelaid, ?_⟩
              intro l hl hkinded
              have hbuilt := hkinded.bound ((hrelaid.shape_eq t).trans hs)
              cases hl
              show ((complete u tt).2.layout u).kind = (tt.shape u).kind
              rw [hkinded.kind_eq, kindOf_of_built hbuilt, hrelaid.shape_eq]
      | _ =>
          rw [hs] at hdeclared
          cases hdeclared

/-- The table in which a type is marked. -/
def marked (tt : TypeTable) (t : TypeId) : TypeTable :=
  tt.update t ({ · with completing := true })

theorem completeWithin_settled {room : Nat} {t : TypeId} {tt : TypeTable} (h : tt.isSettled t = true) :
    completeWithin (room + 1) t tt = ((), tt) := by
  show (completeWithin (room + 1) t).run tt = _
  simp only [completeWithin, StateT.run_bind, StateT.run_get, pure_bind, h]
  rfl

theorem completeWithin_unsettled {room : Nat} {t : TypeId} {tt : TypeTable} (h : tt.isSettled t = false) :
    completeWithin (room + 1) t tt =
      ((), (computeLayout (completeWithin room) t (tt.marked t)).2.update t fun info =>
        { info with
          layout := (computeLayout (completeWithin room) t (tt.marked t)).1.getD info.layout
          completing := false }) := by
  show (completeWithin (room + 1) t).run tt = _
  simp only [completeWithin, StateT.run_bind, StateT.run_get, pure_bind, h]
  rfl

/-- Completion computes layouts and nothing else. -/
theorem leads_completeWithin (room : Nat) (t : TypeId) : Leads Relaid (completeWithin room t) := by
  induction room generalizing t with
  | zero => exact leads_pure composes_relaid _
  | succ room ih =>
      intro tt
      have hmark : Relaid tt (tt.marked t) := relaid_update (fun _ => rfl) fun h => h.kind_eq t
      obtain ⟨hrelaid, hkind⟩ := relaid_computeLayout ih t (tt.marked t)
      cases hsettled : tt.isSettled t with
      | true =>
          rw [completeWithin_settled hsettled]
          exact composes_relaid.refl tt
      | false =>
          rw [completeWithin_unsettled hsettled]
          refine composes_relaid.trans (composes_relaid.trans hmark hrelaid) (relaid_update (fun _ => rfl) ?_)
          intro h
          cases hcomputed : (computeLayout (completeWithin room) t (tt.marked t)).1 with
          | some l =>
              rw [hrelaid.kindOf_eq, hrelaid.shape_eq]
              exact hkind l hcomputed h
          | none => exact h.kind_eq t

theorem leads_complete (t : TypeId) : Leads Relaid (complete t) :=
  fun tt => leads_completeWithin tt.types.size t tt

theorem leads_completed (t : TypeId) : Leads Relaid (completed t) :=
  leads_bind composes_relaid (leads_complete t) fun _ tt => composes_relaid.refl tt

end GoSource.TypeTable
