import GoSource.Proofs.Typing.Tidy

/-!
# Completing types under other handles

Two tables can hold the same types under different handles, one of them among many others.  Types that correspond are
completed alike: what is known about one is known about the other.

* **`Shape.renamed`**: a shape with other handles for its parts.
* **`Twins`**: two operations give the same answer, and leave tables that are related as they were before.
* **`Primed`**: a declared type that one step completes.  How far it is completed makes no difference later.
* **`Tracks f small big`**: the types of `small` are in `big` under the handles that `f` gives them, with the same
  layouts but for primed types.
* **`Frame`**: two tables that differ in one type only.  **`Tracks.frame`**: where two tables differ so from two that
  correspond, only the types that changed have to be compared.
* **`Tracks.completeWithin`**: completing corresponding types keeps that up.
-/

namespace GoSource

/-! ### Renaming -/

/-- A method whose signature has another handle. -/
def Method.renamed (f : TypeId → TypeId) (m : Method) : Method :=
  { m with typ := f m.typ }

namespace Shape

/-- A shape with other handles. -/
def renamed (f : TypeId → TypeId) : Shape → Shape
  | .basic k => .basic k
  | .array elem length => .array (f elem) length
  | .slice elem => .slice (f elem)
  | .pointer elem => .pointer (f elem)
  | .chan elem dir => .chan (f elem) dir
  | .map key elem => .map (f key) (f elem)
  | .func params results variadic => .func (params.map f) (results.map f) variadic
  | .interface methods => .interface (methods.map (Method.renamed f))
  | .builtin name inputs outputs variadic => .builtin name inputs outputs variadic
  | .named pkgPath name underlying methods => .named pkgPath name (underlying.map f) (methods.map (Method.renamed f))

/-- All handles in a shape: the parts, what a declared type stands for, and the signatures of its methods. -/
def handles : Shape → List TypeId
  | .named _ _ underlying methods => underlying.toList ++ methods.map Method.typ
  | s => s.components

variable {f g : TypeId → TypeId}

@[simp] theorem kind_renamed (s : Shape) : (s.renamed f).kind = s.kind := by
  cases s <;> rfl

@[simp] theorem isDeclared_renamed (s : Shape) : (s.renamed f).isDeclared = s.isDeclared := by
  cases s <;> rfl

theorem components_renamed (s : Shape) : (s.renamed f).components = s.components.map f := by
  cases s <;> simp [renamed, components, Method.renamed, Function.comp_def]

theorem handles_of_built {s : Shape} (h : s.isDeclared = false) : s.handles = s.components := by
  cases s with
  | named => cases h
  | _ => rfl

theorem renamed_congr {s : Shape} (h : ∀ t ∈ s.handles, f t = g t) : s.renamed f = s.renamed g := by
  have hmethods (ms : List Method) (h : ∀ t ∈ ms.map Method.typ, f t = g t) :
      ms.map (Method.renamed f) = ms.map (Method.renamed g) := by
    apply List.map_congr_left
    intro m hm
    rw [Method.renamed, Method.renamed, h m.typ (List.mem_map_of_mem hm)]
  cases s with
  | basic | builtin => rfl
  | array | slice | pointer | chan | map => simp_all [renamed, handles, components]
  | func ps rs v =>
      have hps : ps.map f = ps.map g := List.map_congr_left fun t ht => h t (List.mem_append_left _ ht)
      have hrs : rs.map f = rs.map g := List.map_congr_left fun t ht => h t (List.mem_append_right _ ht)
      rw [renamed, renamed, hps, hrs]
  | interface ms => rw [renamed, renamed, hmethods ms h]
  | named pkgPath name u ms =>
      have hu : u.map f = u.map g := by
        cases u with
        | none => rfl
        | some u => exact congrArg some (h u (by simp [handles]))
      rw [renamed, renamed, hu, hmethods ms fun t ht => h t (List.mem_append_right _ ht)]

theorem map_injOn {α β : Type} {f : α → β} {xs ys : List α}
    (h : ∀ x ∈ xs, ∀ y ∈ ys, f x = f y → x = y) (heq : xs.map f = ys.map f) : xs = ys := by
  induction xs generalizing ys with
  | nil => exact (List.map_eq_nil_iff.1 heq.symm).symm
  | cons x xs ih =>
      cases ys with
      | nil => cases heq
      | cons y ys =>
          obtain ⟨hhead, htail⟩ := List.cons.inj heq
          rw [h x List.mem_cons_self y List.mem_cons_self hhead,
            ih (fun a ha b hb => h a (List.mem_cons_of_mem _ ha) b (List.mem_cons_of_mem _ hb)) htail]

theorem renamed_inj {s s' : Shape} (hbuilt : s.isDeclared = false)
    (h : ∀ t ∈ s.components, ∀ u ∈ s'.components, f t = f u → t = u) (heq : s.renamed f = s'.renamed f) : s = s' := by
  cases s with
  | named => cases hbuilt
  | func ps rs v =>
      cases s' with
      | func ps' rs' v' =>
          simp only [renamed, Shape.func.injEq] at heq
          have hps : ps = ps' := map_injOn (fun x hx y hy => h x (List.mem_append_left _ hx) y
            (List.mem_append_left _ hy)) heq.1
          have hrs : rs = rs' := map_injOn (fun x hx y hy => h x (List.mem_append_right _ hx) y
            (List.mem_append_right _ hy)) heq.2.1
          rw [hps, hrs, heq.2.2]
      | _ => cases heq
  | interface ms =>
      cases s' with
      | interface ms' =>
          simp only [renamed, Shape.interface.injEq] at heq
          congr 1
          refine map_injOn (fun m hm m' hm' hmm => ?_) heq
          simp only [Method.renamed, Method.mk.injEq] at hmm
          have htyp := h m.typ (List.mem_map_of_mem hm) m'.typ (List.mem_map_of_mem hm') hmm.2.2
          cases m
          cases m'
          simp_all
      | _ => cases heq
  | basic | builtin => cases s' <;> simp_all [renamed]
  | array | slice | pointer | chan | map => cases s' <;> simp_all [renamed, components]

end Shape

namespace TypeTable

/-! ### Operations that do the same -/

section Twins

variable {α β γ : Type} {S : TypeTable → TypeTable → Prop}

/-- Two operations give the same answer, and leave tables that are related as those before. -/
def Twins (S : TypeTable → TypeTable → Prop) (m m' : TableM α) : Prop :=
  ∀ small big, S small big → (m' big).1 = (m small).1 ∧ S (m small).2 (m' big).2

theorem twins_pure (x : α) : Twins S (pure x) (pure x) :=
  fun _ _ h => ⟨rfl, h⟩

theorem twins_bind {m m' : TableM α} {k k' : α → TableM β} (hm : Twins S m m') (hk : ∀ x, Twins S (k x) (k' x)) :
    Twins S (m >>= k) (m' >>= k') := by
  intro small big h
  obtain ⟨hx, h'⟩ := hm small big h
  show (k' (m' big).1 (m' big).2).1 = (k (m small).1 (m small).2).1 ∧
    S (k (m small).1 (m small).2).2 (k' (m' big).1 (m' big).2).2
  rw [hx]
  exact hk _ _ _ h'

theorem twins_forM {g : TypeId → TableM PUnit} {g' : TypeId → TableM PUnit} {f : TypeId → TypeId} {ts : List TypeId}
    (h : ∀ t ∈ ts, Twins S (g t) (g' (f t))) : Twins S (ts.forM g) ((ts.map f).forM g') := by
  induction ts with
  | nil => exact twins_pure _
  | cons t ts ih =>
      exact twins_bind (h t List.mem_cons_self) fun _ => ih fun u hu => h u (List.mem_cons_of_mem _ hu)

/-- An operation that can be refused goes on only if it was not. -/
theorem twins_except_bind {m m' : TypeM α} {k k' : α → TypeM β} (hm : Twins S m.run m'.run)
    (hk : ∀ x, Twins S (k x).run (k' x).run) : Twins S (m >>= k).run (m' >>= k').run := by
  rw [ExceptT.run_bind, ExceptT.run_bind]
  refine twins_bind hm ?_
  rintro (fault | x)
  · exact twins_pure _
  · exact hk x

theorem twins_lift {m m' : TableM α} (h : Twins S m m') : Twins S (liftM m : TypeM α).run (liftM m' : TypeM α).run :=
  twins_bind h fun _ => twins_pure _

theorem twins_mapM {g g' : TypeId → TypeM γ} {f : TypeId → TypeId} {ts : List TypeId}
    (h : ∀ t ∈ ts, Twins S (g t).run (g' (f t)).run) : Twins S (ts.mapM g).run ((ts.map f).mapM g').run := by
  induction ts with
  | nil => exact twins_pure _
  | cons t ts ih =>
      rw [List.map_cons, List.mapM_cons, List.mapM_cons]
      refine twins_except_bind (h t List.mem_cons_self) fun _ => ?_
      exact twins_except_bind (ih fun u hu => h u (List.mem_cons_of_mem _ hu)) fun _ => twins_pure _

variable {query query' : TypeId → TableM Layout} {f : TypeId → TypeId}

theorem twins_methods {ms : List Method} (h : ∀ m ∈ ms, Twins S (query m.typ) (query' (f m.typ))) (hash : Fingerprint) :
    Twins S (hash.methods query ms) (hash.methods query' (ms.map (Method.renamed f))) := by
  induction ms generalizing hash with
  | nil => exact twins_pure _
  | cons m ms ih =>
      refine twins_bind (h m List.mem_cons_self) fun l => ?_
      dsimp only
      show Twins S _ (if (((hash.string m.pkgPath).string m.name).mix l.hash).isUnknown then _ else _)
      split
      · exact twins_pure _
      · exact ih (fun m hm => h m (List.mem_cons_of_mem _ hm)) _

/-- Shapes are laid out alike if the answers about their parts are. -/
theorem twins_layout {s : Shape} (h : ∀ part ∈ s.components, Twins S (query part) (query' (f part))) (target : Target) :
    Twins S (s.layout target query).run ((s.renamed f).layout target query').run := by
  cases s with
  | basic | builtin | named => exact twins_pure _
  | slice e | pointer e | chan e d =>
      exact twins_except_bind (twins_lift (h e (List.mem_singleton_self e))) fun _ => twins_pure _
  | map k e =>
      refine twins_except_bind (twins_lift (h k (by simp [Shape.components]))) fun _ => ?_
      exact twins_except_bind (twins_lift (h e (by simp [Shape.components]))) fun _ => twins_pure _
  | array e n =>
      rw [Shape.layout, Shape.renamed, Shape.layout]
      split
      · exact twins_pure _
      · refine twins_except_bind (twins_lift (h e (List.mem_singleton_self e))) fun l => ?_
        cases l.array target n with
        | ok => exact twins_pure _
        | error => exact twins_pure _
  | func ps rs v =>
      rw [Shape.layout, Shape.renamed, Shape.layout, ← List.map_append, List.length_map, List.length_map]
      exact twins_except_bind (twins_mapM fun t ht => twins_lift (h t ht)) fun _ => twins_pure _
  | interface ms =>
      rw [Shape.layout, Shape.renamed, Shape.layout, List.length_map]
      refine twins_except_bind (twins_lift (twins_methods (fun m hm => ?_) _)) fun _ => twins_pure _
      exact h m.typ (List.mem_map_of_mem hm)

end Twins

/-! ### Types that one step completes -/

variable {tt tt' : TypeTable} {t u : TypeId} {room : Nat}

/-- A declared type that stands for a completed type. -/
def Primed (tt : TypeTable) (t : TypeId) : Prop :=
  ∃ pkgPath name u ms, tt.shape t = .named pkgPath name (some u) ms ∧ (tt.layout u).isComplete = true ∧
    (tt.info t).completing = false

theorem Primed.refines (h : tt.Primed t) (hrefines : Refines tt tt') : tt'.Primed t := by
  obtain ⟨pkgPath, name, u, ms, hs, hu, hmark⟩ := h
  refine ⟨pkgPath, name, u, ms, (hrefines.shape_eq t).trans hs, hrefines.complete hu, ?_⟩
  rw [hrefines.completing_eq, hmark]

theorem layout_update_of_ne (tt : TypeTable) {x : TypeId} (hne : x ≠ t) (g : TypeInfo → TypeInfo) :
    (tt.update t g).layout x = tt.layout x := by
  rw [layout, info_update, if_neg fun heq => hne heq.1, layout]

/-- A change to a type that is not completed yet does not touch primed types. -/
theorem Primed.update {x : TypeId} (h : tt.Primed x) (hne : x ≠ t) (ht : (tt.layout t).isComplete = false)
    (g : TypeInfo → TypeInfo) : (tt.update t g).Primed x := by
  obtain ⟨pkgPath, name, u, ms, hs, hu, hmark⟩ := h
  have hut : u ≠ t := by
    rintro rfl
    rw [ht] at hu
    cases hu
  refine ⟨pkgPath, name, u, ms, ?_, ?_, ?_⟩
  · rw [shape_update, if_neg fun heq => hne heq.1, hs]
  · rw [layout_update_of_ne tt hut, hu]
  · rw [info_update, if_neg fun heq => hne heq.1, hmark]

/-- Whatever is settled is left alone, if there is room or not. -/
theorem completeWithin_of_settled (h : tt.isSettled t = true) (room : Nat) : completeWithin room t tt = ((), tt) := by
  cases room with
  | zero => rfl
  | succ room => exact completeWithin_settled h

/-- Where a completed type has its layout from. -/
theorem Faithful.layout_named {pkgPath name : String} {ms : List Method} (h : tt.Faithful)
    (hs : tt.shape t = .named pkgPath name (some u) ms) (hcomplete : (tt.layout t).isComplete = true) :
    tt.layout t = { tt.layout u with hash := .ofName pkgPath name } := by
  have hsupported := h.supported t
  have hu : (tt.layout u).isComplete = true := hsupported.contained hcomplete u (by rw [hs]; exact List.mem_singleton_self u)
  have hdescribed := hsupported.described hcomplete
  rw [hs] at hdescribed
  exact hdescribed.unique (.named ((h.supported u).described hu))

/-- One step completes a primed type, and changes nothing else. -/
theorem Faithful.completeWithin_primed {pkgPath name : String} {ms : List Method} (h : tt.Faithful)
    (hs : tt.shape t = .named pkgPath name (some u) ms) (hu : (tt.layout u).isComplete = true)
    (hmark : (tt.info t).completing = false) (room : Nat) :
    (completeWithin (room + 1) t tt).2.layout t = { tt.layout u with hash := .ofName pkgPath name } ∧
      ∀ x, x ≠ t → (completeWithin (room + 1) t tt).2.info x = tt.info x := by
  by_cases hcomplete : (tt.layout t).isComplete = true
  · have hsettled : tt.isSettled t = true := by rw [isSettled, hcomplete, Bool.true_or]
    rw [completeWithin_of_settled hsettled]
    exact ⟨h.layout_named hs hcomplete, fun _ _ => rfl⟩
  · have hsettled : tt.isSettled t = false := by
      rw [isSettled, hmark, Bool.or_false]
      simpa using hcomplete
    have ht : tt.Knows t := knows_of_shape_ne (by rw [hs]; simp)
    -- What the type stands for is settled, so that nothing happens below.
    have hmarked : (tt.marked t).isSettled u = true := by rw [isSettled, layout_marked, hu, Bool.true_or]
    have hcomputed : computeLayout (completeWithin room) t (tt.marked t) =
        (some { tt.layout u with hash := (tt.layout t).hash }, tt.marked t) := by
      rw [computeLayout_bound (((relaid_marked tt t).shape_eq t).trans hs), completeWithin_of_settled hmarked,
        layout_marked, layout_marked]
    constructor
    · rw [completeWithin_layout h hsettled ht (congrArg Prod.fst hcomputed), (h.vouched t).named_hash hs]
    · intro x hx
      rw [completeWithin_unsettled hsettled, hcomputed, info_update, if_neg fun heq => hx heq.1,
        info_marked_of_ne hx]

/-! ### Changes at one type -/

/-- `tt'` differs from `tt` in the type `t` only, which may be new. -/
structure Frame (t : TypeId) (tt tt' : TypeTable) : Prop extends Extends tt tt' where
  faithful : tt'.Faithful
  self : tt'.Knows t
  known : ∀ {x}, tt'.Knows x → x = t ∨ tt.Knows x
  info_eq : ∀ {x}, tt.Knows x → x ≠ t → tt'.info x = tt.info x
  complete : ∀ {x}, (tt.layout x).isComplete = true → (tt'.layout x).isComplete = true

namespace Frame

variable {x : TypeId}

theorem cases (h : Frame t tt tt') (hx : tt'.Knows x) : x = t ∨ tt.Knows x ∧ x ≠ t := by
  by_cases hxt : x = t
  · exact .inl hxt
  · exact .inr ⟨(h.known hx).resolve_left hxt, hxt⟩

theorem shape_of_ne (h : Frame t tt tt') (hx : tt.Knows x) (hxt : x ≠ t) : tt'.shape x = tt.shape x := by
  rw [shape, h.info_eq hx hxt, shape]

theorem layout_of_ne (h : Frame t tt tt') (hx : tt.Knows x) (hxt : x ≠ t) : tt'.layout x = tt.layout x := by
  rw [layout, h.info_eq hx hxt, layout]

/-- What a primed type stands for is complete, and stays so even where it is the type that changes. -/
theorem primed (h : Frame t tt tt') (hprimed : tt.Primed x) (hxt : x ≠ t) : tt'.Primed x := by
  obtain ⟨pkgPath, name, u, ms, hs, hu, hmark⟩ := hprimed
  have hx : tt.Knows x := knows_of_shape_ne (by rw [hs]; simp)
  refine ⟨pkgPath, name, u, ms, (h.shape_of_ne hx hxt).trans hs, h.complete hu, ?_⟩
  rw [h.info_eq hx hxt, hmark]

end Frame

/-- Nothing changes at all. -/
theorem Faithful.frame (h : tt.Faithful) (ht : tt.Knows t) : Frame t tt tt where
  toExtends := .refl tt
  faithful := h
  self := ht
  known hx := .inr hx
  info_eq _ _ := rfl
  complete hx := hx

theorem Faithful.frame_marked (h : tt.Faithful) (ht : tt.Knows t) : Frame t tt (tt.marked t) where
  toExtends := (relaid_marked tt t).extends
  faithful := h.marked t
  self := (relaid_marked tt t).extends.knows ht
  known hx := .inr (by rwa [Knows, size_marked] at hx)
  info_eq _ hxt := info_marked_of_ne hxt
  complete hx := by rwa [layout_marked]

theorem Advances.frame_pushed {s : Shape} {l : Layout} (h : Advances tt (tt.pushed s l)) :
    Frame ⟨tt.types.size⟩ tt (tt.pushed s l) where
  toExtends := h.toExtends
  faithful := h.faithful
  self := knows_pushed.2 (.inl rfl)
  known hx := (knows_pushed.1 hx).imp_left eq_of_index
  info_eq hx _ := by rw [info_pushed, if_neg (Nat.ne_of_lt hx)]
  complete hx := by rwa [h.frozen hx]

theorem Advances.frame_update {g : TypeInfo → TypeInfo} (h : Advances tt (tt.update t g)) (ht : tt.Knows t) :
    Frame t tt (tt.update t g) where
  toExtends := h.toExtends
  faithful := h.faithful
  self := h.knows ht
  known hx := .inr (by simpa [Knows, TypeTable.update] using hx)
  info_eq _ hxt := by rw [info_update, if_neg fun heq => hxt heq.1]
  complete hx := by rwa [h.frozen hx]

/-! ### Tables that correspond -/

variable {f : TypeId → TypeId} {small big small' big' : TypeTable}

/-- The same is known about a type in both tables. -/
def Even (f : TypeId → TypeId) (small big : TypeTable) (t : TypeId) : Prop :=
  big.layout (f t) = small.layout t

/-- The same is known about a type in both tables, or will be after one step. -/
def Paced (f : TypeId → TypeId) (small big : TypeTable) (t : TypeId) : Prop :=
  Even f small big t ∨ small.Primed t ∧ big.Primed (f t)

/-- A type is built in the same way in both tables.  Declared types that stand for interfaces have the methods of these,
whatever methods they were given. -/
inductive Echoes (f : TypeId → TypeId) (small big : TypeTable) (t : TypeId) : Prop where
  | same (h : big.shape (f t) = (small.shape t).renamed f)
  | interface {pkgPath name : String} {u : TypeId} {ms ms' inherited : List Method}
      (hs : small.shape t = .named pkgPath name (some u) ms) (hs' : big.shape (f t) = .named pkgPath name (some (f u)) ms')
      (hbound : small.shape u = .interface inherited)

/-- The types of `small` are in `big`, under the handles that `f` gives them. -/
structure Tracks (f : TypeId → TypeId) (small big : TypeTable) : Prop where
  faithful : small.Faithful
  faithful' : big.Faithful
  target_eq : big.target = small.target
  knows : ∀ {t}, small.Knows t → big.Knows (f t)
  injective : ∀ {t u}, small.Knows t → small.Knows u → f t = f u → t = u
  handles : ∀ {t u}, small.Knows t → u ∈ (small.shape t).handles → small.Knows u
  echoes : ∀ {t}, small.Knows t → Echoes f small big t
  marks : ∀ {t}, small.Knows t → (big.info (f t)).completing = (small.info t).completing
  paced : ∀ {t}, small.Knows t → Paced f small big t

theorem Echoes.of_built (h : Echoes f small big t) (hbuilt : (small.shape t).isDeclared = false) :
    big.shape (f t) = (small.shape t).renamed f := by
  cases h with
  | same h => exact h
  | interface hs =>
      rw [hs] at hbuilt
      cases hbuilt

theorem Echoes.of_named {pkgPath name : String} {bound : Option TypeId} {ms : List Method} (h : Echoes f small big t)
    (hs : small.shape t = .named pkgPath name bound ms) :
    ∃ ms', big.shape (f t) = .named pkgPath name (bound.map f) ms' := by
  cases h with
  | same h =>
      rw [hs] at h
      exact ⟨_, h⟩
  | interface hs' h _ =>
      cases hs.symm.trans hs'
      exact ⟨_, h⟩

/-- Types are built as before, whatever was found out about their layouts. -/
theorem Echoes.relaid (h : Echoes f small big t) (hsmall : Relaid small small') (hbig : Relaid big big') :
    Echoes f small' big' t := by
  cases h with
  | same hs =>
      apply Echoes.same
      rw [hbig.shape_eq, hsmall.shape_eq, hs]
  | interface hs hs' hbound =>
      exact .interface ((hsmall.shape_eq t).trans hs) ((hbig.shape_eq _).trans hs') ((hsmall.shape_eq _).trans hbound)

namespace Tracks

/-- What refines both tables keeps all but the layouts. -/
theorem refines (h : Tracks f small big) (hsmall : Refines small small') (hbig : Refines big big')
    (hpaced : ∀ {t}, small.Knows t → Paced f small' big' t) : Tracks f small' big' := by
  have hknows {t : TypeId} : small'.Knows t ↔ small.Knows t := by rw [Knows, hsmall.size_eq, Knows]
  exact {
    faithful := hsmall.faithful
    faithful' := hbig.faithful
    target_eq := by rw [hbig.target_eq, hsmall.target_eq, h.target_eq]
    knows := fun ht => hbig.extends.knows (h.knows (hknows.1 ht))
    injective := fun ht hu => h.injective (hknows.1 ht) (hknows.1 hu)
    handles := fun ht hu => hknows.2 (h.handles (hknows.1 ht) (hsmall.shape_eq _ ▸ hu))
    echoes := fun ht => (h.echoes (hknows.1 ht)).relaid hsmall.toRelaid hbig.toRelaid
    marks := fun ht => by rw [hbig.completing_eq, hsmall.completing_eq, h.marks (hknows.1 ht)]
    paced := fun ht => hpaced (hknows.1 ht) }

/-! Both tables change, at the type `t` of the smaller one and at `a`, to which `t` corresponds then. -/

section Frame

variable {g : TypeId → TypeId} {a x : TypeId} (h : Tracks f small big) (hsmall : Frame t small small')
  (hsame : ∀ {x}, small.Knows x → g x = f x) (hbig : Frame a big big')
  (hapart : ∀ {x}, small.Knows x → x ≠ t → f x ≠ a)

include h hsmall hsame hapart

theorem injective_frame {y : TypeId} (hself : g t = a) (hx : small'.Knows x) (hy : small'.Knows y)
    (heq : g x = g y) : x = y := by
  have hother {x : TypeId} (hx : small.Knows x) (hxt : x ≠ t) : g x ≠ g t := by
    rw [hsame hx, hself]
    exact hapart hx hxt
  rcases hsmall.cases hx with rfl | ⟨hx, hxt⟩
  · rcases hsmall.cases hy with rfl | ⟨hy, hyt⟩
    · rfl
    · exact absurd heq.symm (hother hy hyt)
  · rcases hsmall.cases hy with rfl | ⟨hy, -⟩
    · exact absurd heq (hother hx hxt)
    · rw [hsame hx, hsame hy] at heq
      exact h.injective hx hy heq

include hbig

theorem echoes_of_ne (hx : small.Knows x) (hxt : x ≠ t) : Echoes g small' big' x := by
  have hshape : small'.shape x = small.shape x := hsmall.shape_of_ne hx hxt
  have hshape' : big'.shape (g x) = big.shape (f x) := by
    rw [hsame hx, hbig.shape_of_ne (h.knows hx) (hapart hx hxt)]
  cases h.echoes hx with
  | same heq =>
      apply Echoes.same
      rw [hshape', hshape, heq]
      exact (Shape.renamed_congr fun u hu => hsame (h.handles hx hu)).symm
  | @interface pkgPath name u ms ms' inherited hs hs' hbound =>
      have hnamed' : big'.shape (g x) = .named pkgPath name (some (g u)) ms' := by
        rw [hshape', hsame (h.faithful.meant hs), hs']
      exact .interface (hshape.trans hs) hnamed' (hsmall.shape_of_built hbound rfl (by simp))

theorem paced_of_ne (hx : small.Knows x) (hxt : x ≠ t) : Paced g small' big' x := by
  have hne : f x ≠ a := hapart hx hxt
  rw [Paced, Even, hsame hx, hbig.layout_of_ne (h.knows hx) hne, hsmall.layout_of_ne hx hxt]
  exact (h.paced hx).imp_right fun ⟨hprimed, hprimed'⟩ => ⟨hsmall.primed hprimed hxt, hbig.primed hprimed' hne⟩

/-- The tables still correspond, if they do at the type that changes. -/
theorem frame (hself : g t = a) (hhandles : ∀ u ∈ (small'.shape t).handles, small'.Knows u)
    (hechoes : Echoes g small' big' t) (hmarks : (big'.info a).completing = (small'.info t).completing)
    (hpaced : Paced g small' big' t) :
    Tracks g small' big' where
  faithful := hsmall.faithful
  faithful' := hbig.faithful
  target_eq := by rw [hbig.target_eq, h.target_eq, hsmall.target_eq]
  knows := by
    intro x hx
    rcases hsmall.cases hx with rfl | ⟨hx, -⟩
    · rw [hself]
      exact hbig.self
    · rw [hsame hx]
      exact hbig.knows (h.knows hx)
  injective := h.injective_frame hsmall hsame hapart hself
  handles := by
    intro x u hx hu
    rcases hsmall.cases hx with rfl | ⟨hx, hxt⟩
    · exact hhandles u hu
    · rw [hsmall.shape_of_ne hx hxt] at hu
      exact hsmall.knows (h.handles hx hu)
  echoes := by
    intro x hx
    rcases hsmall.cases hx with rfl | ⟨hx, hxt⟩
    · exact hechoes
    · exact h.echoes_of_ne hsmall hsame hbig hapart hx hxt
  marks := by
    intro x hx
    rcases hsmall.cases hx with rfl | ⟨hx, hxt⟩
    · rw [hself, hmarks]
    · rw [hsame hx, hbig.info_eq (h.knows hx) (hapart hx hxt), hsmall.info_eq hx hxt, h.marks hx]
  paced := by
    intro x hx
    rcases hsmall.cases hx with rfl | ⟨hx, hxt⟩
    · exact hpaced
    · exact h.paced_of_ne hsmall hsame hbig hapart hx hxt

end Frame

/-- Different types correspond to different types. -/
theorem apart (h : Tracks f small big) (ht : small.Knows t) {x : TypeId} (hx : small.Knows x) (hxt : x ≠ t) :
    f x ≠ f t :=
  fun heq => hxt (h.injective hx ht heq)

/-- Types that are built, or are being completed, are known equally well. -/
theorem even_of_built (h : Tracks f small big) (ht : small.Knows t) (hbuilt : (small.shape t).isDeclared = false) :
    Even f small big t := by
  rcases h.paced ht with heven | ⟨⟨pkgPath, name, u, ms, hs, -⟩, -⟩
  · exact heven
  · rw [hs] at hbuilt
    cases hbuilt

theorem even_of_marked (h : Tracks f small big) (ht : small.Knows t) (hmark : (small.info t).completing = true) :
    Even f small big t := by
  rcases h.paced ht with heven | ⟨⟨pkgPath, name, u, ms, -, -, hunmarked⟩, -⟩
  · exact heven
  · rw [hmark] at hunmarked
    cases hunmarked

theorem part_known (h : Tracks f small big) (ht : small.Knows t) {part : TypeId}
    (hpart : part ∈ (small.shape t).components) : small.Knows part := by
  apply h.handles ht
  cases hs : small.shape t with
  | named =>
      rw [hs] at hpart
      cases hpart
  | _ =>
      rw [hs] at hpart
      exact hpart

/-- A type is marked in both tables. -/
theorem marked (h : Tracks f small big) (ht : small.Knows t) (heven : Even f small big t) :
    Tracks f (small.marked t) (big.marked (f t)) := by
  have hsmall : Frame t small (small.marked t) := h.faithful.frame_marked ht
  have hbig : Frame (f t) big (big.marked (f t)) := h.faithful'.frame_marked (h.knows ht)
  refine h.frame hsmall (fun _ => rfl) hbig (h.apart ht) rfl (fun u hu => ?handles) ?echoes ?marks (.inl ?even)
  case handles =>
    rw [(relaid_marked small t).shape_eq] at hu
    exact hsmall.knows (h.handles ht hu)
  case echoes => exact (h.echoes ht).relaid (relaid_marked small t) (relaid_marked big (f t))
  case marks => rw [completing_marked ht, completing_marked (h.knows ht)]
  case even => rw [Even, layout_marked, layout_marked, heven]

/-- A primed type is completed. -/
theorem completeWithin_primed (h : Tracks f small big) (ht : small.Knows t) (hprimed : small.Primed t)
    (hprimed' : big.Primed (f t)) (room room' : Nat) :
    Tracks f (completeWithin (room + 1) t small).2 (completeWithin (room' + 1) (f t) big).2 ∧
      Even f (completeWithin (room + 1) t small).2 (completeWithin (room' + 1) (f t) big).2 t := by
  have hsmall := completeWithin_refines (room + 1) t small h.faithful
  have hbig := completeWithin_refines (room' + 1) (f t) big h.faithful'
  obtain ⟨pkgPath, name, u, ms, hs, hu, hmark⟩ := hprimed
  obtain ⟨pkgPath', name', u', ms', hs', hu', hmark'⟩ := hprimed'
  obtain ⟨ms'', hs''⟩ := (h.echoes ht).of_named hs
  cases hs''.symm.trans hs'
  obtain ⟨hlayout, hothers⟩ := h.faithful.completeWithin_primed hs hu hmark room
  obtain ⟨hlayout', hothers'⟩ := h.faithful'.completeWithin_primed hs' hu' hmark' room'
  have huknown : small.Knows u := h.faithful.meant hs
  have heven : Even f (completeWithin (room + 1) t small).2 (completeWithin (room' + 1) (f t) big).2 t := by
    rw [Even, hlayout, hlayout', h.even_of_built huknown (h.faithful.bound hs)]
  refine ⟨h.refines hsmall hbig fun {x} hx => ?_, heven⟩
  by_cases hxt : x = t
  · rw [hxt]
    exact .inl heven
  · have hne : f x ≠ f t := h.apart ht hx hxt
    rcases h.paced hx with hxeven | ⟨hxprimed, hxprimed'⟩
    · apply Or.inl
      rw [Even, layout, hothers' _ hne, layout, hothers _ hxt]
      exact hxeven
    · exact .inr ⟨hxprimed.refines hsmall, hxprimed'.refines hbig⟩

/-- The tables while the parts of a type are completed: they track each other, and refine those that were there
before. -/
def Within (f : TypeId → TypeId) (small₀ big₀ small big : TypeTable) : Prop :=
  Tracks f small big ∧ Refines small₀ small ∧ Refines big₀ big

/-- Layouts are computed alike, if the parts are completed alike. -/
theorem computeLayout {complete complete' : TypeId → TableM Unit} (h : Tracks f small big) (ht : small.Knows t)
    (hmark : (small.info t).completing = true)
    (hcomplete : ∀ part, small.Knows part → ∀ small' big', Within f small big small' big' →
      Within f small big (complete part small').2 (complete' (f part) big').2 ∧
        Even f (complete part small').2 (complete' (f part) big').2 part) :
    (TypeTable.computeLayout complete' (f t) big).1 = (TypeTable.computeLayout complete t small).1 ∧
      Within f small big (TypeTable.computeLayout complete t small).2 (TypeTable.computeLayout complete' (f t) big).2 := by
  have hstart : Within f small big small big := ⟨h, .refl h.faithful, .refl h.faithful'⟩
  cases hs : small.shape t with
  | named pkgPath name bound ms =>
      obtain ⟨ms', hs'⟩ := (h.echoes ht).of_named hs
      cases bound with
      | none =>
          rw [computeLayout_unbound hs, computeLayout_unbound hs']
          exact ⟨rfl, hstart⟩
      | some u =>
          obtain ⟨hwithin, heven⟩ := hcomplete u (h.faithful.meant hs) small big hstart
          have hself : Even f (complete u small).2 (complete' (f u) big).2 t := by
            apply hwithin.1.even_of_marked
            · exact hwithin.2.1.extends.knows ht
            · rw [hwithin.2.1.completing_eq, hmark]
          rw [computeLayout_bound hs, computeLayout_bound hs', heven, hself]
          exact ⟨rfl, hwithin⟩
  | _ =>
      have hbuilt : (small.shape t).isDeclared = false := by
        rw [hs]
        rfl
      have hs' := (h.echoes ht).of_built hbuilt
      have hbuilt' : (big.shape (f t)).isDeclared = false := by
        rw [hs', Shape.isDeclared_renamed, hbuilt]
      have htwins : Twins (Within f small big)
          (do
            (small.shape t).components.forM complete
            let outcome ← ((small.shape t).layout small.target (ask complete)).run
            pure outcome.toOption)
          (do
            ((small.shape t).components.map f).forM complete'
            let outcome ← (((small.shape t).renamed f).layout small.target (ask complete')).run
            pure outcome.toOption) := by
        refine twins_bind (twins_forM fun part hpart => ?_) fun _ => ?_
        · exact fun small' big' hwithin => ⟨rfl, (hcomplete part (h.part_known ht hpart) small' big' hwithin).1⟩
        · refine twins_bind (twins_layout (fun part hpart => ?_) _) fun _ => twins_pure _
          intro small' big' hwithin
          obtain ⟨hwithin', heven⟩ := hcomplete part (h.part_known ht hpart) small' big' hwithin
          exact ⟨heven, hwithin'⟩
      rw [computeLayout_asks hbuilt, computeLayout_asks hbuilt', hs', Shape.components_renamed, h.target_eq]
      exact htwins small big hstart

/-- A type is entered in both tables, and its layout recorded. -/
theorem completeWithin_unsettled (h : Tracks f small big) (ht : small.Knows t) (heven : Even f small big t)
    {room room' : Nat} (hsettled : small.isSettled t = false) (hsettled' : big.isSettled (f t) = false)
    (hcomplete : ∀ part, (small.marked t).Knows part → ∀ small' big',
      Within f (small.marked t) (big.marked (f t)) small' big' →
      Within f (small.marked t) (big.marked (f t)) (TypeTable.completeWithin room part small').2
          (TypeTable.completeWithin room' (f part) big').2 ∧
        Even f (TypeTable.completeWithin room part small').2 (TypeTable.completeWithin room' (f part) big').2 part) :
    Tracks f (TypeTable.completeWithin (room + 1) t small).2 (TypeTable.completeWithin (room' + 1) (f t) big).2 ∧
      Even f (TypeTable.completeWithin (room + 1) t small).2 (TypeTable.completeWithin (room' + 1) (f t) big).2 t := by
  have hsmall := completeWithin_refines (room + 1) t small h.faithful
  have hbig := completeWithin_refines (room' + 1) (f t) big h.faithful'
  have hmarked : Tracks f (small.marked t) (big.marked (f t)) := h.marked ht heven
  have ht' : (small.marked t).Knows t := by
    rw [Knows, size_marked]
    exact ht
  obtain ⟨hcomputed, htracks, hwithin, hwithin'⟩ :=
    hmarked.computeLayout ht' (completing_marked ht) hcomplete
  rw [TypeTable.completeWithin_unsettled hsettled] at hsmall ⊢
  rw [TypeTable.completeWithin_unsettled hsettled'] at hbig ⊢
  rw [hcomputed] at hbig ⊢
  generalize (TypeTable.computeLayout (TypeTable.completeWithin room) t (small.marked t)).1 = outcome at *
  generalize (TypeTable.computeLayout (TypeTable.completeWithin room) t (small.marked t)).2 = inner at *
  generalize (TypeTable.computeLayout (TypeTable.completeWithin room') (f t) (big.marked (f t))).2 = inner' at *
  have hinner : Even f inner inner' t := by
    apply htracks.even_of_marked
    · exact hwithin.extends.knows ht'
    · rw [hwithin.completing_eq, completing_marked ht]
  have hknows : inner.Knows t := hwithin.extends.knows ht'
  have hself : Even f (inner.update t fun info => { info with layout := outcome.getD info.layout, completing := false })
      (inner'.update (f t) fun info => { info with layout := outcome.getD info.layout, completing := false }) t := by
    rw [Even, layout, info_update, if_pos ⟨rfl, htracks.knows hknows⟩, layout, info_update, if_pos ⟨rfl, hknows⟩]
    exact congrArg outcome.getD hinner
  have hincomplete : (inner.layout t).isComplete = false := by
    rw [hwithin.layout_marked]
    rw [isSettled, Bool.or_eq_false_iff] at hsettled
    exact hsettled.1
  have hincomplete' : (inner'.layout (f t)).isComplete = false := by rw [hinner, hincomplete]
  refine ⟨h.refines hsmall hbig fun {x} hx => ?_, hself⟩
  by_cases hxt : x = t
  · rw [hxt]
    exact .inl hself
  · have hne : f x ≠ f t := h.apart ht hx hxt
    have hx' : inner.Knows x := hwithin.extends.knows ((relaid_marked small t).extends.knows hx)
    rcases htracks.paced hx' with hxeven | ⟨hprimed, hprimed'⟩
    · apply Or.inl
      rw [Even, layout_update_of_ne inner' hne, layout_update_of_ne inner hxt, hxeven]
    · exact .inr ⟨hprimed.update hxt hincomplete _, hprimed'.update hne hincomplete' _⟩

/-- Corresponding types are completed alike, where there is room. -/
theorem completeWithin (h : Tracks f small big) (ht : small.Knows t) {room room' : Nat}
    (hroom : small.unmarked.card ≤ room) (hroom' : big.unmarked.card ≤ room') :
    Tracks f (TypeTable.completeWithin room t small).2 (TypeTable.completeWithin room' (f t) big).2 ∧
      Even f (TypeTable.completeWithin room t small).2 (TypeTable.completeWithin room' (f t) big).2 t := by
  -- By induction on the room: what is completed inside finds one more type marked.
  induction room using Nat.strongRecOn generalizing room' t small big with
  | _ room ih =>
    by_cases hmark : (small.info t).completing = true
    · have hsettled : small.isSettled t = true := by rw [isSettled, hmark, Bool.or_true]
      have hsettled' : big.isSettled (f t) = true := by rw [isSettled, h.marks ht, hmark, Bool.or_true]
      rw [completeWithin_of_settled hsettled, completeWithin_of_settled hsettled']
      exact ⟨h, h.even_of_marked ht hmark⟩
    · have hmark : (small.info t).completing = false := by simpa using hmark
      have hmark' : (big.info (f t)).completing = false := by rw [h.marks ht, hmark]
      obtain ⟨room, rfl, hinner⟩ := enter_of_room hroom ht hmark
      obtain ⟨room', rfl, hinner'⟩ := enter_of_room hroom' (h.knows ht) hmark'
      rcases h.paced ht with heven | ⟨hprimed, hprimed'⟩
      · by_cases hcomplete : (small.layout t).isComplete = true
        · have hsettled : small.isSettled t = true := by rw [isSettled, hcomplete, Bool.true_or]
          have hsettled' : big.isSettled (f t) = true := by rw [isSettled, heven, hcomplete, Bool.true_or]
          rw [completeWithin_of_settled hsettled, completeWithin_of_settled hsettled']
          exact ⟨h, heven⟩
        · have hcomplete : (small.layout t).isComplete = false := by simpa using hcomplete
          refine h.completeWithin_unsettled ht heven ?_ ?_ ?_
          · rw [isSettled, hcomplete, hmark, Bool.or_false]
          · rw [isSettled, heven, hcomplete, hmark', Bool.or_false]
          · rintro part hpart small' big' ⟨htracks, hrefines, hrefines'⟩
            obtain ⟨htracks', heven'⟩ := ih room (Nat.lt_succ_self room) htracks (hrefines.extends.knows hpart)
              (hrefines.unmarked_eq ▸ hinner) (hrefines'.unmarked_eq ▸ hinner')
            refine ⟨⟨htracks', hrefines.trans ?_, hrefines'.trans ?_⟩, heven'⟩
            · exact completeWithin_refines room part small' htracks.faithful
            · exact completeWithin_refines room' (f part) big' htracks.faithful'
      · exact h.completeWithin_primed ht hprimed hprimed' room room'

/-- Asking for the layouts of corresponding types gives the same answer, and keeps the tables in step. -/
theorem completed {small₀ big₀ : TypeTable} (ht : small₀.Knows t) :
    Twins (Within f small₀ big₀) (TypeTable.completed t) (TypeTable.completed (f t)) := by
  rintro small big ⟨h, hsmall, hbig⟩
  have hroom (tt : TypeTable) : tt.unmarked.card ≤ tt.types.size :=
    (Finset.card_filter_le _ _).trans (Finset.card_range _).le
  obtain ⟨htracks, heven⟩ := h.completeWithin (hsmall.extends.knows ht) (hroom small) (hroom big)
  refine ⟨heven, htracks, hsmall.trans ?_, hbig.trans ?_⟩
  · exact refining_complete t small h.faithful
  · exact refining_complete (f t) big h.faithful'

end Tracks

end TypeTable

end GoSource
