import GoSource.Proofs.Typing.Layouts
import GoSource.Proofs.Typing.Methods

/-!
# Tables that can be reached

A table is reached by operations on handles that it has given out.  What holds of every such table:

* **`Sound`**: built types have one handle each, their parts were made before them, predeclared types have their
  places, and arrays fit into the address space.
* **`Extends`**: what later operations leave alone.
* **`Step`**: what an operation comes down to.
* **`sound_of_reachable`**: every table that can be reached is sound.
-/

namespace GoSource.TypeTable

/-! ### Operations -/

/-- An operation on a table. -/
inductive Operation where
  | array (elem : TypeId) (length : Nat)
  | slice (elem : TypeId)
  | pointer (elem : TypeId)
  | chan (elem : TypeId) (dir : ChanDir)
  | map (key elem : TypeId)
  | func (params results : List TypeId) (variadic : Bool)
  | interface (embedded : List TypeId) (direct : List Method)
  | builtin (name : String) (inputs outputs : Nat) (variadic : Bool)
  | named (pkgPath name : String)
  | bind (t meaning : TypeId)
  | method (t : TypeId) (m : Method)
  | complete (t : TypeId)

namespace Operation

/-- The handles that an operation is given. -/
def handles : Operation → List TypeId
  | .array e _ | .slice e | .pointer e | .chan e _ | .complete e => [e]
  | .map k e => [k, e]
  | .func ps rs _ => ps ++ rs
  | .interface embedded direct => embedded ++ direct.map Method.typ
  | .builtin .. | .named .. => []
  | .bind t meaning => [t, meaning]
  | .method t m => [t, m.typ]

/-- The table after an operation, whether it was refused or not. -/
def run (tt : TypeTable) : Operation → TypeTable
  | .array e n => (newArray e n tt).2
  | .slice e => (newSlice e tt).2
  | .pointer e => (newPointer e tt).2
  | .chan e d => (newChan e d tt).2
  | .map k e => (newMap k e tt).2
  | .func ps rs v => (newFunc ps rs v tt).2
  | .interface embedded direct => (newInterface embedded direct tt).2
  | .builtin name i o v => (newBuiltin name i o v tt).2
  | .named pkgPath name => (newNamed pkgPath name tt).2
  | .bind t meaning => (setUnderlying t meaning tt).2
  | .method t m => (addMethod t m tt).2
  | .complete t => (TypeTable.complete t tt).2

end Operation

/-- The table `tt'` comes after `tt` by operations on handles that the table knows at the time. -/
inductive Reaches (tt : TypeTable) : TypeTable → Prop where
  | refl : Reaches tt tt
  | step {tt' : TypeTable} (h : Reaches tt tt') (op : Operation) (hknown : ∀ t ∈ op.handles, tt'.Knows t) :
      Reaches tt (op.run tt')

theorem Reaches.after {tt tt' tt'' : TypeTable} (h : Reaches tt tt') (op : Operation)
    (hknown : ∀ t ∈ op.handles, tt'.Knows t) (hrun : op.run tt' = tt'') : Reaches tt tt'' :=
  hrun ▸ h.step op hknown

theorem Reaches.trans {tt tt' tt'' : TypeTable} (h : Reaches tt tt') (h' : Reaches tt' tt'') : Reaches tt tt'' := by
  induction h' with
  | refl => exact h
  | step _ op hknown ih => exact ih.step op hknown

/-- A table that can be reached from that of the predeclared types. -/
def Reachable (tt : TypeTable) : Prop :=
  ∃ target, Reaches (TypeTable.new target) tt

/-! ### Invariants -/

/-- What holds of every table. -/
structure Sound (tt : TypeTable) : Prop extends tt.Kinded where
  /-- Predeclared types have their places. -/
  basics : ∀ k, k.isBasic = true → tt.shape (basic k) = .basic k
  /-- Built types have one handle each. -/
  unique : ∀ {t u}, tt.Knows t → tt.Knows u → (tt.shape t).isDeclared = false → tt.shape t = tt.shape u → t = u
  /-- The parts of a type were made before it. -/
  ordered : ∀ t, ∀ part ∈ (tt.shape t).components, part.index < t.index
  /-- What a declared type stands for is in the table. -/
  meant : ∀ {t pkgPath name u ms}, tt.shape t = .named pkgPath name (some u) ms → tt.Knows u
  /-- Arrays fit into the address space. -/
  fits : ∀ {t e n}, tt.shape t = .array e n → n ≤ tt.target.maxSize

/-- What operations leave alone: the handles, built types, the names of declared types and what they stand for. -/
structure Extends (tt tt' : TypeTable) : Prop where
  target_eq : tt'.target = tt.target
  size_le : tt.types.size ≤ tt'.types.size
  shape_eq : ∀ {t}, tt.Knows t → (tt.shape t).isDeclared = false → tt'.shape t = tt.shape t
  named_eq : ∀ {t pkgPath name bound ms}, tt.shape t = .named pkgPath name bound ms →
    ∃ bound' ms', tt'.shape t = .named pkgPath name bound' ms' ∧ (bound.isSome → bound' = bound)

variable {tt tt' tt'' : TypeTable} {t u : TypeId} {s : Shape}

theorem knows_of_shape_ne (h : tt.shape t ≠ .basic .invalid) : tt.Knows t := by
  by_contra hknows
  apply h
  rw [shape, info_of_not_knows hknows]

namespace Extends

theorem refl (tt : TypeTable) : Extends tt tt :=
  ⟨rfl, Nat.le_refl _, fun _ _ => rfl, fun h => ⟨_, _, h, fun _ => rfl⟩⟩

theorem knows (h : Extends tt tt') (ht : tt.Knows t) : tt'.Knows t :=
  Nat.lt_of_lt_of_le ht h.size_le

theorem bound_eq {pkgPath name : String} {ms : List Method} (h : Extends tt tt')
    (hs : tt.shape t = .named pkgPath name (some u) ms) : ∃ ms', tt'.shape t = .named pkgPath name (some u) ms' := by
  obtain ⟨bound', ms', hs', hbound⟩ := h.named_eq hs
  rw [hbound rfl] at hs'
  exact ⟨ms', hs'⟩

/-- A built type stays as it is. -/
theorem shape_of_built (h : Extends tt tt') (hs : tt.shape t = s) (hbuilt : s.isDeclared = false)
    (hvalid : s ≠ .basic .invalid) : tt'.shape t = s := by
  subst hs
  exact h.shape_eq (knows_of_shape_ne hvalid) hbuilt

/-- A type whose shape fixes its kind keeps it. -/
theorem kind_of_shape {k : Kind} (h : Extends tt tt') (hk : (tt.shape t).kind = k) (hvalid : k ≠ .invalid) :
    (tt'.shape t).kind = k := by
  subst hk
  refine congrArg Shape.kind (h.shape_of_built rfl ?_ ?_)
  · cases hs : tt.shape t with
    | named => exact absurd (congrArg Shape.kind hs) hvalid
    | _ => rfl
  · intro hs
    exact hvalid (congrArg Shape.kind hs)

/-- Predeclared types keep their places. -/
theorem basics (h : Extends tt tt') (hsound : tt.Sound) (k : Kind) (hk : k.isBasic = true) :
    tt'.shape (basic k) = .basic k := by
  refine h.shape_of_built (hsound.basics k hk) rfl ?_
  rintro heq
  cases heq
  cases hk

theorem trans (h : Extends tt tt') (h' : Extends tt' tt'') : Extends tt tt'' := by
  refine ⟨h'.target_eq.trans h.target_eq, Nat.le_trans h.size_le h'.size_le, ?_, ?_⟩
  · intro t ht hbuilt
    have hshape := h.shape_eq ht hbuilt
    rw [h'.shape_eq (h.knows ht) (by rw [hshape]; exact hbuilt), hshape]
  · intro t pkgPath name bound ms hs
    obtain ⟨bound', ms', hs', hbound⟩ := h.named_eq hs
    obtain ⟨bound'', ms'', hs'', hbound'⟩ := h'.named_eq hs'
    refine ⟨bound'', ms'', hs'', fun hsome => ?_⟩
    rw [hbound' (by rw [hbound hsome]; exact hsome), hbound hsome]

end Extends

/-! ### Layouts -/

theorem extends_of_shape_eq (htarget : tt'.target = tt.target) (hsize : tt'.types.size = tt.types.size)
    (hshape : ∀ t, tt'.shape t = tt.shape t) : Extends tt tt' := by
  refine ⟨htarget, Nat.le_of_eq hsize.symm, fun _ _ => hshape _, ?_⟩
  intro t pkgPath name bound ms hs
  exact ⟨bound, ms, (hshape t).trans hs, fun _ => rfl⟩

theorem Relaid.extends (h : Relaid tt tt') : Extends tt tt' :=
  extends_of_shape_eq h.target_eq h.size_eq h.shape_eq

theorem Relaid.sound (h : Relaid tt tt') (hsound : tt.Sound) : tt'.Sound where
  toKinded := h.kinded hsound.toKinded
  basics k hk := (h.shape_eq _).trans (hsound.basics k hk)
  unique ht hu hbuilt heq := by
    rw [h.shape_eq, h.shape_eq] at heq
    rw [h.shape_eq] at hbuilt
    rw [Knows, h.size_eq] at ht hu
    exact hsound.unique ht hu hbuilt heq
  ordered t := by
    rw [h.shape_eq]
    exact hsound.ordered t
  meant hs := by
    rw [h.shape_eq] at hs
    rw [Knows, h.size_eq]
    exact hsound.meant hs
  fits hs := by
    rw [h.shape_eq] at hs
    rw [h.target_eq]
    exact hsound.fits hs

/-! ### New types -/

/-- The table with one more type. -/
def pushed (tt : TypeTable) (s : Shape) (l : Layout) : TypeTable :=
  { tt with types := tt.types.push { shape := s, short := tt.spellShape tt.short false s, layout := l } }

theorem add_run (s : Shape) (l : Layout) (tt : TypeTable) : add s l tt = (⟨tt.types.size⟩, tt.pushed s l) := rfl

theorem info_pushed (tt : TypeTable) (s : Shape) (l : Layout) (t : TypeId) :
    (tt.pushed s l).info t =
      if t.index = tt.types.size then { shape := s, short := tt.spellShape tt.short false s, layout := l }
      else tt.info t := by
  simp only [info, pushed, Array.getElem?_push]
  split
  · rfl
  · rfl

theorem shape_pushed (tt : TypeTable) (s : Shape) (l : Layout) (t : TypeId) :
    (tt.pushed s l).shape t = if t.index = tt.types.size then s else tt.shape t := by
  rw [shape, info_pushed]
  split
  · rfl
  · rfl

theorem shape_pushed_of_knows (s : Shape) (l : Layout) (h : tt.Knows t) : (tt.pushed s l).shape t = tt.shape t := by
  rw [shape_pushed, if_neg (Nat.ne_of_lt h)]

theorem knows_pushed {l : Layout} : (tt.pushed s l).Knows t ↔ t.index = tt.types.size ∨ tt.Knows t := by
  simp only [Knows, pushed, Array.size_push]
  omega

theorem extends_pushed (tt : TypeTable) (s : Shape) (l : Layout) : Extends tt (tt.pushed s l) := by
  refine ⟨rfl, by simp [pushed], fun ht _ => shape_pushed_of_knows s l ht, ?_⟩
  intro t pkgPath name bound ms hs
  have ht : tt.Knows t := knows_of_shape_ne (by rw [hs]; simp)
  exact ⟨bound, ms, (shape_pushed_of_knows s l ht).trans hs, fun _ => rfl⟩

/-- A new type that is not there yet, made of types that are, and of the right kind. -/
structure Fresh (tt : TypeTable) (s : Shape) (l : Layout) : Prop where
  unused : s.isDeclared = false → ∀ t, tt.Knows t → tt.shape t ≠ s
  known : ∀ part ∈ s.components, tt.Knows part
  unbound : ∀ pkgPath name u ms, s ≠ .named pkgPath name (some u) ms
  kind_eq : l.kind = s.kind
  fits : ∀ e n, s = .array e n → n ≤ tt.target.maxSize

/-- In the larger table a type is the new one, or an old one. -/
theorem shape_pushed_cases (tt : TypeTable) (s : Shape) (l : Layout) (t : TypeId) :
    t.index = tt.types.size ∧ (tt.pushed s l).shape t = s ∨ (tt.pushed s l).shape t = tt.shape t := by
  rw [shape_pushed]
  split
  · next h => exact .inl ⟨h, rfl⟩
  · exact .inr rfl

theorem Sound.kindOf_pushed {l : Layout} (h : tt.Sound) (t : TypeId) :
    (tt.pushed s l).kindOf (tt.shape t) = tt.kindOf (tt.shape t) := by
  cases hs : tt.shape t with
  | named pkgPath name bound ms =>
      cases bound with
      | none => rfl
      | some u =>
          show ((tt.pushed s l).shape u).kind = (tt.shape u).kind
          rw [shape_pushed_of_knows s l (h.meant hs)]
  | _ => rfl

theorem Fresh.kind_pushed {l : Layout} (h : tt.Fresh s l) : l.kind = (tt.pushed s l).kindOf s := by
  rw [h.kind_eq]
  cases hs : s with
  | named pkgPath name bound ms =>
      cases bound with
      | none => rfl
      | some u => exact absurd hs (h.unbound _ _ _ _)
  | _ => rfl

/-- A new type stands for nothing yet. -/
theorem Fresh.named_of_pushed {l : Layout} {pkgPath name : String} {ms : List Method} (h : tt.Fresh s l)
    (hs : (tt.pushed s l).shape t = .named pkgPath name (some u) ms) :
    tt.shape t = .named pkgPath name (some u) ms := by
  obtain ⟨-, hnew⟩ | hold := shape_pushed_cases tt s l t
  · exact absurd (hnew.symm.trans hs) (h.unbound _ _ _ _)
  · exact hold.symm.trans hs

/-- A new type is built unlike those that were there. -/
theorem Fresh.unique_pushed {l : Layout} (h : tt.Fresh s l) (hsound : tt.Sound) (ht : (tt.pushed s l).Knows t)
    (hu : (tt.pushed s l).Knows u) (hbuilt : ((tt.pushed s l).shape t).isDeclared = false)
    (heq : (tt.pushed s l).shape t = (tt.pushed s l).shape u) : t = u := by
  have hself {t : TypeId} (ht : t.index = tt.types.size) : (tt.pushed s l).shape t = s := by
    rw [shape_pushed, if_pos ht]
  have hsame {t u : TypeId} (ht : t.index = tt.types.size) (hu : tt.Knows u) (hbuilt : s.isDeclared = false) :
      (tt.pushed s l).shape t ≠ (tt.pushed s l).shape u := by
    rw [shape_pushed_of_knows s l hu, hself ht]
    exact (h.unused hbuilt u hu).symm
  rcases knows_pushed.1 ht with htnew | htold
  · rcases knows_pushed.1 hu with hunew | huold
    · exact eq_of_index (htnew.trans hunew.symm)
    · exact absurd heq (hsame htnew huold (hself htnew ▸ hbuilt))
  · rcases knows_pushed.1 hu with hunew | huold
    · exact absurd heq.symm (hsame hunew htold (hself hunew ▸ heq ▸ hbuilt))
    · rw [shape_pushed_of_knows s l htold, shape_pushed_of_knows s l huold] at heq
      rw [shape_pushed_of_knows s l htold] at hbuilt
      exact hsound.unique htold huold hbuilt heq

theorem Sound.pushed {l : Layout} (h : tt.Sound) (hfresh : tt.Fresh s l) : (tt.pushed s l).Sound where
  kind_eq := by
    intro t
    rw [layout, info_pushed, shape_pushed]
    split
    · exact hfresh.kind_pushed
    · rw [h.kindOf_pushed]
      exact h.kind_eq t
  bound := by
    intro t pkgPath name u ms hs
    have hold := hfresh.named_of_pushed hs
    rw [shape_pushed_of_knows s l (h.meant hold)]
    exact h.bound hold
  basics := (extends_pushed tt s l).basics h
  unique := hfresh.unique_pushed h
  ordered := by
    intro t part hpart
    obtain ⟨hlast, hnew⟩ | hold := shape_pushed_cases tt s l t
    · rw [hnew] at hpart
      rw [hlast]
      exact hfresh.known part hpart
    · rw [hold] at hpart
      exact h.ordered t part hpart
  meant hs := (extends_pushed tt s l).knows (h.meant (hfresh.named_of_pushed hs))
  fits := by
    intro t e n hs
    obtain ⟨-, hnew⟩ | hold := shape_pushed_cases tt s l t
    · exact hfresh.fits e n (hnew.symm.trans hs)
    · exact h.fits (hold.symm.trans hs)

/-! ### Interning -/

theorem knows_of_find? (h : tt.find? s = some t) : tt.Knows t ∧ tt.shape t = s := by
  rw [find?, Option.map_eq_some_iff] at h
  obtain ⟨i, hi, rfl⟩ := h
  obtain ⟨hlt, hshape, -⟩ := Array.findIdx?_eq_some_iff_getElem.1 hi
  refine ⟨hlt, ?_⟩
  rw [shape, info, Array.getElem?_eq_getElem hlt]
  exact of_decide_eq_true hshape

theorem shape_ne_of_find? (h : tt.find? s = none) (ht : tt.Knows t) : tt.shape t ≠ s := by
  rw [find?, Option.map_eq_none_iff, Array.findIdx?_eq_none_iff] at h
  intro heq
  have hmem := h _ (Array.getElem_mem ht)
  rw [shape, info, Array.getElem?_eq_getElem ht] at heq
  exact absurd heq (of_decide_eq_false hmem)

/-- A built type is found by its shape. -/
theorem Sound.find?_eq (h : tt.Sound) (hs : tt.shape t = s) (ht : tt.Knows t) (hbuilt : s.isDeclared = false) :
    tt.find? s = some t := by
  cases hfind : tt.find? s with
  | none => exact absurd hs (shape_ne_of_find? hfind ht)
  | some u =>
      obtain ⟨hu, hsu⟩ := knows_of_find? hfind
      rw [h.unique hu ht (hsu ▸ hbuilt) (hsu.trans hs.symm)]

theorem intern_run (s : Shape) (tt : TypeTable) :
    intern s tt = (match tt.find? s with
      | some t => pure t
      | none => do
          let layout ← s.layout tt.target fun part => completed part
          add s layout : TypeM TypeId) tt := rfl

/-- A type that is there already is handed out again, and nothing changes. -/
theorem intern_found (h : tt.find? s = some t) : intern s tt = (.ok t, tt) := by
  rw [intern_run, h]
  rfl

/-- A type that is not there yet is refused, or added once its layout is known. -/
theorem intern_unfound (h : tt.find? s = none) :
    ∃ outcome tt', (s.layout tt.target fun part => completed part) tt = (outcome, tt') ∧ Relaid tt tt' ∧
      ((∃ fault, outcome = .error fault ∧ intern s tt = (.error fault, tt')) ∨
        ∃ l, outcome = .ok l ∧ intern s tt = (.ok ⟨tt'.types.size⟩, tt'.pushed s l)) := by
  have hrelaid := leads_layout composes_relaid (fun t => leads_completed t) tt.target s tt
  cases hlayout : (s.layout tt.target fun part => completed part) tt with
  | mk outcome tt' =>
      rw [ExceptT.run, hlayout] at hrelaid
      refine ⟨outcome, tt', rfl, hrelaid, ?_⟩
      rw [intern_run, h]
      cases outcome with
      | error fault => exact .inl ⟨fault, rfl, run_refused hlayout⟩
      | ok l => exact .inr ⟨l, rfl, run_granted hlayout⟩

/-- A shape that is not there yet and has been laid out can be added. -/
theorem fresh_of_layout {l : Layout} (hfind : tt.find? s = none) (hbuilt : s.isDeclared = false)
    (hknown : ∀ part ∈ s.components, tt.Knows part) (hrelaid : Relaid tt tt')
    (hlayout : (s.layout tt.target fun part => completed part) tt = (.ok l, tt')) : tt'.Fresh s l := by
  refine ⟨?_, ?_, ?_, ?_, ?_⟩
  · intro _ t ht
    rw [Knows, hrelaid.size_eq] at ht
    rw [hrelaid.shape_eq]
    exact shape_ne_of_find? hfind ht
  · intro part hpart
    exact hrelaid.extends.knows (hknown part hpart)
  · rintro pkgPath name u ms rfl
    cases hbuilt
  · exact kind_layout _ _ _ tt l (congrArg Prod.fst hlayout)
  · rintro e n rfl
    by_contra hn
    have hthrow : Shape.layout tt.target (fun part => completed part) (.array e n) tt =
        (.error (.arrayTooLarge n tt.target.maxSize), tt) := by
      rw [hrelaid.target_eq] at hn
      rw [Shape.layout, if_pos (Nat.not_le.1 hn)]
      rfl
    rw [hthrow] at hlayout
    cases hlayout

/-- Tables that stay sound and only grow. -/
structure Grows (tt tt' : TypeTable) : Prop extends Extends tt tt' where
  sound : tt'.Sound

theorem Grows.refl (h : tt.Sound) : Grows tt tt :=
  ⟨.refl tt, h⟩

theorem Grows.trans (h : Grows tt tt') (h' : Grows tt' tt'') : Grows tt tt'' :=
  ⟨h.toExtends.trans h'.toExtends, h'.sound⟩

theorem Relaid.grows (h : Relaid tt tt') (hsound : tt.Sound) : Grows tt tt' :=
  ⟨h.extends, h.sound hsound⟩

/-- Interning keeps the table sound, and answers with a type of the shape. -/
theorem Sound.intern (h : tt.Sound) (hbuilt : s.isDeclared = false) (hknown : ∀ part ∈ s.components, tt.Knows part) :
    Grows tt (intern s tt).2 ∧
      ∀ t, (intern s tt).1 = .ok t → (intern s tt).2.Knows t ∧ (intern s tt).2.shape t = s := by
  cases hfind : tt.find? s with
  | some t =>
      rw [intern_found hfind]
      refine ⟨.refl h, ?_⟩
      intro t' ht'
      cases ht'
      exact knows_of_find? hfind
  | none =>
      obtain ⟨outcome, tt', hlayout, hrelaid, ⟨fault, rfl, hrun⟩ | ⟨l, rfl, hrun⟩⟩ := intern_unfound hfind
      · rw [hrun]
        refine ⟨hrelaid.grows h, ?_⟩
        intro t ht
        cases ht
      · have hfresh := fresh_of_layout hfind hbuilt hknown hrelaid hlayout
        rw [hrun]
        refine ⟨⟨hrelaid.extends.trans (extends_pushed tt' s l), (hrelaid.sound h).pushed hfresh⟩, ?_⟩
        intro t ht
        cases ht
        exact ⟨knows_pushed.2 (.inl rfl), by rw [shape_pushed, if_pos rfl]⟩

/-- Shapes other than arrays are never refused. -/
theorem granted_intern (h : ∀ e n, s ≠ .array e n) : Granted (intern s) := by
  intro tt
  rw [intern_run]
  cases tt.find? s with
  | some t => exact ⟨t, tt, rfl⟩
  | none => exact granted_bind (granted_layout _ _ h) (fun _ => granted_lift _) tt

/-- Interning a shape that is never refused. -/
theorem Sound.interned (h : tt.Sound) (hbuilt : s.isDeclared = false) (hknown : ∀ part ∈ s.components, tt.Knows part)
    (harray : ∀ e n, s ≠ .array e n) :
    ∃ t tt', TypeTable.intern s tt = (.ok t, tt') ∧ Grows tt tt' ∧ tt'.Knows t ∧ tt'.shape t = s := by
  obtain ⟨t, tt', hrun⟩ := granted_intern harray tt
  obtain ⟨hgrows, hanswer⟩ := h.intern hbuilt hknown
  rw [hrun] at hgrows hanswer
  exact ⟨t, tt', hrun, hgrows, hanswer t rfl⟩

/-- A function type is refused before the table changes, or interned. -/
theorem newFunc_cases (ps rs : List TypeId) (v : Bool) (tt : TypeTable) :
    (v = true ∧ ps.getLast?.map tt.kind ≠ some .slice ∧ newFunc ps rs v tt = (.error .invalidVariadic, tt)) ∨
      ((v = true → ps.getLast?.map tt.kind = some .slice) ∧ newFunc ps rs v tt = intern (.func ps rs v) tt) := by
  by_cases h : v = true ∧ ps.getLast?.map tt.kind ≠ some .slice
  · refine .inl ⟨h.1, h.2, ?_⟩
    show (do
      if v = true ∧ ps.getLast?.map tt.kind ≠ some .slice then throw .invalidVariadic
      intern (.func ps rs v) : TypeM TypeId) tt = _
    rw [if_pos h]
    rfl
  · refine .inr ⟨fun hv => Decidable.of_not_not fun hne => h ⟨hv, hne⟩, ?_⟩
    show (do
      if v = true ∧ ps.getLast?.map tt.kind ≠ some .slice then throw .invalidVariadic
      intern (.func ps rs v) : TypeM TypeId) tt = _
    rw [if_neg h]

theorem newInterface_run (embedded : List TypeId) (direct : List Method) (tt : TypeTable) :
    newInterface embedded direct tt = (do
      let methods ← MonadExcept.ofExcept (tt.mergeMethods embedded direct)
      intern (.interface methods) : TypeM TypeId) tt := rfl

/-- An interface of methods that can be merged. -/
theorem newInterface_ok {embedded : List TypeId} {direct ms : List Method}
    (h : tt.mergeMethods embedded direct = .ok ms) :
    newInterface embedded direct tt = intern (.interface ms) tt := by
  rw [newInterface_run, h]
  rfl

/-- An interface is refused before the table changes, or its merged methods are interned. -/
theorem newInterface_cases (embedded : List TypeId) (direct : List Method) (tt : TypeTable) :
    (∃ fault, newInterface embedded direct tt = (.error fault, tt)) ∨
      ∃ ms, tt.mergeMethods embedded direct = .ok ms ∧
        newInterface embedded direct tt = intern (.interface ms) tt := by
  cases hmerge : tt.mergeMethods embedded direct with
  | error fault =>
      refine .inl ⟨fault, ?_⟩
      rw [newInterface_run, hmerge]
      rfl
  | ok ms => exact .inr ⟨ms, rfl, newInterface_ok hmerge⟩

/-! ### Declared types -/

theorem fresh_named (tt : TypeTable) (pkgPath name : String) : tt.Fresh (.named pkgPath name none []) {} := by
  refine ⟨?_, ?_, ?_, rfl, ?_⟩
  · intro hbuilt
    cases hbuilt
  · intro part hpart
    cases hpart
  · intro pkgPath' name' u ms heq
    cases heq
  · intro e n heq
    cases heq

theorem Sound.newNamed (h : tt.Sound) (pkgPath name : String) : Grows tt (newNamed pkgPath name tt).2 :=
  ⟨extends_pushed tt _ _, h.pushed (fresh_named tt pkgPath name)⟩

theorem shape_update (tt : TypeTable) (t s : TypeId) (f : TypeInfo → TypeInfo) :
    (tt.update t f).shape s = if s = t ∧ tt.Knows t then (f (tt.info t)).shape else tt.shape s := by
  rw [shape, info_update]
  split
  · rfl
  · rfl

theorem shape_update_of_ne (tt : TypeTable) (hne : u ≠ t) (f : TypeInfo → TypeInfo) :
    (tt.update t f).shape u = tt.shape u := by
  rw [shape_update, if_neg fun heq => hne heq.1]

section Redeclare

variable {f : TypeInfo → TypeInfo} {pkgPath name : String} {bound bound' : Option TypeId} {ms ms' : List Method}

/-! What is recorded about a declared type changes, and it stays declared and bound as it was. -/

theorem extends_redeclare (hs : tt.shape t = .named pkgPath name bound ms)
    (hs' : (f (tt.info t)).shape = .named pkgPath name bound' ms') (hkeeps : bound.isSome → bound' = bound) :
    Extends tt (tt.update t f) where
  target_eq := rfl
  size_le := by simp [update]
  shape_eq := by
    intro u _ hbuilt
    refine shape_update_of_ne tt ?_ f
    rintro rfl
    rw [hs] at hbuilt
    cases hbuilt
  named_eq := by
    intro u p n b ms'' hu
    by_cases hut : u = t
    · subst hut
      cases hs.symm.trans hu
      have ht : tt.Knows u := knows_of_shape_ne (by rw [hs]; simp)
      exact ⟨bound', ms', by rw [shape_update, if_pos ⟨rfl, ht⟩, hs'], hkeeps⟩
    · exact ⟨b, ms'', (shape_update_of_ne tt hut f).trans hu, fun _ => rfl⟩

/-- The declared types afterwards stand for built types of the table before. -/
theorem Sound.means_redeclared {s : TypeId} {p n : String} {ms'' : List Method} (h : tt.Sound)
    (hself : (tt.update t f).shape t = .named pkgPath name bound' ms')
    (hbuilt : ∀ u, bound' = some u → tt.Knows u ∧ (tt.shape u).isDeclared = false)
    (hs : (tt.update t f).shape s = .named p n (some u) ms'') : tt.Knows u ∧ (tt.shape u).isDeclared = false := by
  by_cases hst : s = t
  · subst hst
    cases hself.symm.trans hs
    exact hbuilt u rfl
  · rw [shape_update_of_ne tt hst] at hs
    exact ⟨h.meant hs, h.bound hs⟩

theorem Sound.redeclare (h : tt.Sound) (hs : tt.shape t = .named pkgPath name bound ms)
    (hs' : (f (tt.info t)).shape = .named pkgPath name bound' ms') (hkeeps : bound.isSome → bound' = bound)
    (hbuilt : ∀ u, bound' = some u → tt.Knows u ∧ (tt.shape u).isDeclared = false)
    (hkind : (f (tt.info t)).layout.kind = tt.kindOf (.named pkgPath name bound' ms')) :
    Grows tt (tt.update t f) := by
  have hext := extends_redeclare hs hs' hkeeps
  have ht : tt.Knows t := knows_of_shape_ne (by rw [hs]; simp)
  have hself : (tt.update t f).shape t = .named pkgPath name bound' ms' := by
    rw [shape_update, if_pos ⟨rfl, ht⟩, hs']
  have hmeans {s p n u ms''} (hs'' : (tt.update t f).shape s = .named p n (some u) ms'') :
      tt.Knows u ∧ (tt.shape u).isDeclared = false := h.means_redeclared hself hbuilt hs''
  have hother {s : TypeId} (hs'' : ((tt.update t f).shape s).isDeclared = false) :
      (tt.update t f).shape s = tt.shape s := by
    refine shape_update_of_ne tt ?_ f
    rintro rfl
    rw [hself] at hs''
    cases hs''
  have hkindOf {s : Shape} (hbound : ∀ p n u ms, s = .named p n (some u) ms →
      tt.Knows u ∧ (tt.shape u).isDeclared = false) : (tt.update t f).kindOf s = tt.kindOf s := by
    unfold kindOf
    split
    · next p n u ms =>
        obtain ⟨hu, hubuilt⟩ := hbound p n u ms rfl
        rw [hext.shape_eq hu hubuilt]
    · rfl
  refine ⟨hext, ?_⟩
  exact {
    kind_eq := fun s => by
      rw [hkindOf fun _ _ _ _ heq => hmeans heq, layout, info_update, shape_update]
      split
      · rw [hs', hkind]
      · exact h.kind_eq s
    bound := fun hs'' => by
      obtain ⟨hu, hubuilt⟩ := hmeans hs''
      rw [hext.shape_eq hu hubuilt]
      exact hubuilt
    basics := hext.basics h
    unique := fun hs'' hu hbuilt' heq => by
      have hsize : (tt.update t f).types.size = tt.types.size := by simp [update]
      rw [Knows, hsize] at hs'' hu
      have hsame := hother hbuilt'
      have hsame' := hother (heq ▸ hbuilt')
      exact h.unique hs'' hu (hsame ▸ hbuilt') (hsame.symm.trans (heq.trans hsame'))
    ordered := fun s part hpart => by
      by_cases hst : s = t
      · subst hst
        rw [hself] at hpart
        cases hpart
      · rw [shape_update_of_ne tt hst] at hpart
        exact h.ordered s part hpart
    meant := fun hs'' => hext.knows (hmeans hs'').1
    fits := fun hs'' => h.fits ((hother (by rw [hs'']; rfl)).symm.trans hs'') }

end Redeclare

/-- What a type stands for is in the table, and built. -/
theorem Sound.underlying? (h : tt.Sound) (ht : tt.Knows t) (hu : tt.underlying? t = some u) :
    tt.Knows u ∧ (tt.shape u).isDeclared = false := by
  rw [TypeTable.underlying?] at hu
  split at hu
  · next pkgPath name bound ms hs =>
      subst hu
      exact ⟨h.meant hs, h.bound hs⟩
  · next hs =>
      cases hu
      refine ⟨ht, ?_⟩
      cases hshape : tt.shape t with
      | named pkgPath name bound ms => exact absurd hshape (hs pkgPath name bound ms)
      | _ => rfl

theorem setUnderlying_run (t meaning : TypeId) (tt : TypeTable) :
    setUnderlying t meaning tt = (match tt.shape t with
      | .named pkgPath name bound methods =>
          match tt.underlying? meaning with
          | none => throw (.incompleteUnderlying (tt.spell meaning))
          | some u => do
              if bound.isSome then throw (.underlyingAlreadySet (tt.spell t))
              let hash := (Fingerprint.start.string pkgPath).string name
              set (tt.update t fun info =>
                { info with shape := .named pkgPath name (some u) methods
                            layout := { info.layout with kind := (tt.shape u).kind, hash } })
      | _ => throw (.notNamed (tt.spell t)) : TypeM Unit) tt := rfl

/-- A declared type is bound, or nothing happens. -/
theorem setUnderlying_cases (t meaning : TypeId) (tt : TypeTable) :
    (∃ fault, setUnderlying t meaning tt = (.error fault, tt)) ∨
      ∃ pkgPath name ms u, tt.shape t = .named pkgPath name none ms ∧ tt.underlying? meaning = some u ∧
        setUnderlying t meaning tt = (.ok (), tt.update t fun info =>
          { info with
            shape := .named pkgPath name (some u) ms
            layout := { info.layout with
              kind := (tt.shape u).kind, hash := (Fingerprint.start.string pkgPath).string name } }) := by
  rw [setUnderlying_run]
  cases hs : tt.shape t with
  | named pkgPath name bound ms =>
      cases hu : tt.underlying? meaning with
      | none => exact .inl ⟨_, rfl⟩
      | some u =>
          cases bound with
          | some v => exact .inl ⟨_, rfl⟩
          | none => exact .inr ⟨pkgPath, name, ms, u, rfl, rfl, rfl⟩
  | _ => exact .inl ⟨_, rfl⟩

/-- A declared type without meaning takes the one it is given. -/
theorem setUnderlying_ok {pkgPath name : String} {ms : List Method} {meaning : TypeId}
    (hs : tt.shape t = .named pkgPath name none ms) (hu : tt.underlying? meaning = some u) :
    ∃ tt', setUnderlying t meaning tt = (.ok (), tt') ∧ tt'.shape t = .named pkgPath name (some u) ms := by
  have ht : tt.Knows t := knows_of_shape_ne (by rw [hs]; simp)
  rw [setUnderlying_run, hs, hu]
  refine ⟨_, rfl, ?_⟩
  rw [shape_update, if_pos ⟨rfl, ht⟩]

theorem Sound.setUnderlying {meaning : TypeId} (h : tt.Sound) (hm : tt.Knows meaning) :
    Grows tt (setUnderlying t meaning tt).2 := by
  obtain ⟨fault, hrun⟩ | ⟨pkgPath, name, ms, u, hs, hu, hrun⟩ := setUnderlying_cases t meaning tt
  · rw [hrun]
    exact .refl h
  · rw [hrun]
    refine h.redeclare hs rfl ?_ ?_ rfl
    · intro hbound
      cases hbound
    · intro v hv
      cases hv
      exact h.underlying? hm hu

theorem get_granted (tt : TypeTable) : (get : TypeM TypeTable) tt = (.ok tt, tt) := rfl

/-- A method is added to a declared type, or nothing happens. -/
theorem addMethod_cases (t : TypeId) (m : Method) (tt : TypeTable) :
    (∃ outcome, addMethod t m tt = (outcome, tt)) ∨
      ∃ pkgPath name bound ms, tt.shape t = .named pkgPath name bound ms ∧
        addMethod t m tt = (.ok (), tt.update t
          ({ · with shape := .named pkgPath name bound ((ms ++ [m]).mergeSort Method.le) })) := by
  rw [addMethod, run_granted (get_granted tt)]
  cases hs : tt.shape t with
  | named pkgPath name bound ms =>
      dsimp only
      by_cases hkind : (tt.shape m.typ).kind ≠ .func
      · rw [if_pos hkind]
        exact .inl ⟨_, rfl⟩
      · rw [if_neg hkind]
        cases ms.find? (·.sameName m) with
        | none => exact .inr ⟨pkgPath, name, bound, ms, rfl, rfl⟩
        | some old =>
            dsimp only
            split
            · exact .inl ⟨_, rfl⟩
            · exact .inl ⟨_, rfl⟩
  | _ => exact .inl ⟨_, rfl⟩

theorem Sound.addMethod (h : tt.Sound) (m : Method) : Grows tt (addMethod t m tt).2 := by
  obtain ⟨outcome, hrun⟩ | ⟨pkgPath, name, bound, ms, hs, hrun⟩ := addMethod_cases t m tt
  · rw [hrun]
    exact .refl h
  · rw [hrun]
    refine h.redeclare hs rfl (fun _ => rfl) ?_ ?_
    · rintro u rfl
      exact ⟨h.meant hs, h.bound hs⟩
    · have hkind := h.kind_eq t
      rw [hs] at hkind
      cases bound with
      | none => exact hkind
      | some u => exact hkind

/-! ### All operations -/

/-- The methods of an embedded interface have types that the table knows. -/
theorem Sound.knows_embedded {ms : List Method} {m : Method} (h : tt.Sound) (ht : tt.Knows t)
    (hms : tt.embeddedMethods t = .ok ms) (hm : m ∈ ms) : tt.Knows m.typ := by
  rw [embeddedMethods, underlyingShape?] at hms
  cases hu : tt.underlying? t with
  | none =>
      rw [hu] at hms
      cases hms
  | some u =>
      rw [hu] at hms
      cases hs : tt.shape u with
      | interface ms' =>
          rw [Option.map_some, hs] at hms
          cases hms
          have hlt := h.ordered u m.typ (by rw [hs]; exact List.mem_map_of_mem hm)
          exact Nat.lt_trans hlt (h.underlying? ht hu).1
      | _ =>
          rw [Option.map_some, hs] at hms
          cases hms

/-- The methods of an interface have types that the table knows, if those it is made of have. -/
theorem Sound.knows_merged {embedded : List TypeId} {direct ms : List Method} (h : tt.Sound)
    (hknown : ∀ t ∈ embedded ++ direct.map Method.typ, tt.Knows t)
    (hms : tt.mergeMethods embedded direct = .ok ms) : ∀ part ∈ ms.map Method.typ, tt.Knows part := by
  intro part hpart
  obtain ⟨m, hm, rfl⟩ := List.mem_map.1 hpart
  obtain ⟨-, hdirect | ⟨t, ht, ms', hms', hm'⟩⟩ := (mergeMethods_spec hms).2 m hm
  · exact hknown _ (List.mem_append_right _ (List.mem_map_of_mem hdirect))
  · exact h.knows_embedded (hknown t (List.mem_append_left _ ht)) hms' hm'

/-- What an operation comes down to: it is refused at once, a shape is interned, or a declared type or a layout
changes. -/
inductive Step (tt : TypeTable) : TypeTable → Prop where
  | refused : Step tt tt
  | intern {s : Shape} (hbuilt : s.isDeclared = false) (hknown : ∀ part ∈ s.components, tt.Knows part) :
      Step tt (intern s tt).2
  | named (pkgPath name : String) : Step tt (newNamed pkgPath name tt).2
  | bind (t : TypeId) {meaning : TypeId} (hknown : tt.Knows meaning) : Step tt (setUnderlying t meaning tt).2
  | method (t : TypeId) (m : Method) : Step tt (addMethod t m tt).2
  | complete (t : TypeId) : Step tt (complete t tt).2

theorem Sound.step (h : tt.Sound) (op : Operation) (hknown : ∀ t ∈ op.handles, tt.Knows t) : tt.Step (op.run tt) := by
  cases op with
  | array e n => exact .intern (s := .array e n) rfl hknown
  | slice e => exact .intern (s := .slice e) rfl hknown
  | pointer e => exact .intern (s := .pointer e) rfl hknown
  | chan e d => exact .intern (s := .chan e d) rfl hknown
  | map k e => exact .intern (s := .map k e) rfl hknown
  | func ps rs v =>
      obtain ⟨-, -, hrun⟩ | ⟨-, hrun⟩ := newFunc_cases ps rs v tt
      · rw [Operation.run, hrun]
        exact .refused
      · rw [Operation.run, hrun]
        exact .intern (s := .func ps rs v) rfl hknown
  | interface embedded direct =>
      obtain ⟨fault, hrun⟩ | ⟨ms, hmerge, hrun⟩ := newInterface_cases embedded direct tt
      · rw [Operation.run, hrun]
        exact .refused
      · rw [Operation.run, hrun]
        exact .intern (s := .interface ms) rfl (h.knows_merged hknown hmerge)
  | builtin => exact .intern rfl fun part hpart => by cases hpart
  | named pkgPath name => exact .named pkgPath name
  | bind t meaning => exact .bind t (hknown meaning (by simp [Operation.handles]))
  | method t m => exact .method t m
  | complete t => exact .complete t

theorem Step.grows (hstep : tt.Step tt') (h : tt.Sound) : Grows tt tt' := by
  cases hstep with
  | refused => exact .refl h
  | intern hbuilt hparts => exact (h.intern hbuilt hparts).1
  | named pkgPath name => exact h.newNamed pkgPath name
  | bind t hm => exact h.setUnderlying hm
  | method t m => exact h.addMethod m
  | complete t => exact (leads_complete t tt).grows h

/-- An operation keeps the table sound. -/
theorem Sound.run (h : tt.Sound) (op : Operation) (hknown : ∀ t ∈ op.handles, tt.Knows t) :
    Grows tt (op.run tt) :=
  (h.step op hknown).grows h

/-- Any number of operations keep the table sound. -/
theorem Reaches.grows (h : Reaches tt tt') (hsound : tt.Sound) : Grows tt tt' := by
  induction h with
  | refl => exact .refl hsound
  | step _ op hknown ih => exact ih.trans (ih.sound.run op hknown)

/-- The kinds of the predeclared types, by their places. -/
def kindAt (t : TypeId) : Kind :=
  ((Kind.invalid :: Kind.basics)[t.index]?).getD .invalid

theorem info_new (target : Target) (t : TypeId) :
    (new target).shape t = .basic (kindAt t) ∧ (new target).layout t = (kindAt t).layout target := by
  simp only [shape, layout, info, new, kindAt, List.getElem?_toArray, List.getElem?_map]
  cases (Kind.invalid :: Kind.basics)[t.index]? with
  | none => exact ⟨rfl, rfl⟩
  | some k => exact ⟨rfl, rfl⟩

theorem kindAt_basic {k : Kind} (h : k.isBasic = true) : kindAt (basic k) = k := by
  have hmem : k ∈ Kind.basics := by
    rw [Kind.basics, List.mem_filter]
    refine ⟨?_, h⟩
    cases k <;> decide
  rw [kindAt, basic, if_pos h, List.getElem?_cons_succ, List.getElem?_idxOf hmem]
  rfl

theorem kindAt_inj (target : Target) (ht : (new target).Knows t) (hu : (new target).Knows u)
    (heq : kindAt t = kindAt u) : t = u := by
  have hnodup : (Kind.invalid :: Kind.basics).Nodup := by decide
  have hsize : (new target).types.size = (Kind.invalid :: Kind.basics).length := by
    rw [new, List.size_toArray, List.length_map]
  rw [Knows, hsize] at ht hu
  rw [kindAt, kindAt, List.getElem?_eq_getElem ht, List.getElem?_eq_getElem hu] at heq
  exact eq_of_index ((List.getElem_inj hnodup).1 heq)

theorem sound_new (target : Target) : (new target).Sound := by
  have hbasic (t : TypeId) : (new target).shape t = .basic (kindAt t) := (info_new target t).1
  exact {
    kind_eq := fun t => by
      rw [hbasic, (info_new target t).2]
      exact kind_basicLayout target (kindAt t)
    bound := fun {t} _ _ _ _ hs => by cases (hbasic t).symm.trans hs
    basics := fun k hk => by rw [hbasic, kindAt_basic hk]
    unique := fun ht hu _ heq => by
      rw [hbasic, hbasic] at heq
      exact kindAt_inj target ht hu (Shape.basic.inj heq)
    ordered := fun t part hpart => by
      rw [hbasic] at hpart
      cases hpart
    meant := fun {t} _ _ _ _ hs => by cases (hbasic t).symm.trans hs
    fits := fun {t} _ _ hs => by cases (hbasic t).symm.trans hs }

/-- Every table that can be reached is sound. -/
theorem sound_of_reachable (h : Reachable tt) : tt.Sound := by
  obtain ⟨target, h⟩ := h
  exact (h.grows (sound_new target)).sound

end GoSource.TypeTable
