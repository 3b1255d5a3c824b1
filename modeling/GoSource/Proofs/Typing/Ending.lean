import GoSource.Proofs.Typing.Canonical
import GoSource.Proofs.Typing.Completable

/-!
# Completion comes to an end

Completing a type leads to the types that it stands on, and through declared types back to itself.  The rule below
says what is done about one type; `complete` is the rule applied to itself.  A type is marked while the rule works on
it, and left alone while it is marked, so that the rule is not nested deeper than there are types, however they refer
to each other.  What would happen below that depth does not matter.

* **`completeBy`**, **`unrolled`**: the rule, and the rule applied to itself a number of times.
* **`SameMarks`**: completion takes back the marks that it sets.
* **`Coincide`**: two operations do the same as long as the marks are those of a given table.
* **`unrolled_eq`**: with an unmarked type entered, fewer are left, so the depth suffices.
* **`completion_ends`**: all that asks for completion comes to an end, and leaves no type marked.
-/

namespace GoSource.TypeTable

variable {α β : Type} {tt tt' : TypeTable} {t : TypeId}

/-! ### The rule of completion -/

/-- What is done about a type; `complete` completes the types that it stands on. -/
def completeBy (complete : TypeId → TableM Unit) (t : TypeId) : TableM Unit := do
  if (← get).isSettled t then return
  modify (·.update t ({ · with completing := true }))
  let computed ← computeLayout complete t
  modify (·.update t fun info =>
    { info with layout := computed.getD info.layout, completing := false })

/-- The rule of completion, applied to itself `depth` times.  `bottom` stands where it would be applied once more. -/
def unrolled (bottom : TypeId → TableM Unit) : (depth : Nat) → TypeId → TableM Unit
  | 0 => bottom
  | depth + 1 => completeBy (unrolled bottom depth)

theorem completeWithin_succ (room : Nat) : completeWithin (room + 1) = completeBy (completeWithin room) := rfl

theorem completeBy_settled {complete : TypeId → TableM Unit} (h : tt.isSettled t = true) :
    completeBy complete t tt = ((), tt) := by
  show (completeBy complete t).run tt = _
  simp only [completeBy, StateT.run_bind, StateT.run_get, pure_bind, h]
  rfl

theorem completeBy_unsettled {complete : TypeId → TableM Unit} (h : tt.isSettled t = false) :
    completeBy complete t tt =
      ((), (computeLayout complete t (tt.marked t)).2.update t fun info =>
        { info with
          layout := (computeLayout complete t (tt.marked t)).1.getD info.layout
          completing := false }) := by
  show (completeBy complete t).run tt = _
  simp only [completeBy, StateT.run_bind, StateT.run_get, pure_bind, h]
  rfl

/-! ### Constructors -/

/-- The type with a given shape, added if there is none yet; `complete` completes its parts. -/
def internBy (complete : TypeId → TableM Unit) (s : Shape) : TypeM TypeId := do
  let tt ← get
  match tt.find? s with
  | some t => pure t
  | none => do
      let layout ← s.layout tt.target (ask complete)
      add s layout

/-- What the table does about a request, when `complete` completes the parts of a type. -/
def Request.runBy (complete : TypeId → TableM Unit) : Request → TypeM TypeId
  | .basic k _ => pure (TypeTable.basic k)
  | .array e n => internBy complete (.array e n)
  | .slice e => internBy complete (.slice e)
  | .pointer e => internBy complete (.pointer e)
  | .chan e d => internBy complete (.chan e d)
  | .map k e => internBy complete (.map k e)
  | .func ps rs v => do
      let tt ← get
      if v ∧ ps.getLast?.map tt.kind ≠ some .slice then throw .invalidVariadic
      internBy complete (.func ps rs v)
  | .interface embedded direct => do
      let methods ← MonadExcept.ofExcept ((← get).mergeMethods embedded direct)
      internBy complete (.interface methods)
  | .builtin name i o v => internBy complete (.builtin name i o v)

theorem internBy_run (complete : TypeId → TableM Unit) (s : Shape) (tt : TypeTable) :
    internBy complete s tt = (match tt.find? s with
      | some t => pure t
      | none => do
          let layout ← s.layout tt.target (ask complete)
          add s layout : TypeM TypeId) tt := rfl

theorem Request.runBy_func (complete : TypeId → TableM Unit) (ps rs : List TypeId) (v : Bool) (tt : TypeTable) :
    runBy complete (.func ps rs v) tt =
      if v = true ∧ ps.getLast?.map tt.kind ≠ some .slice then (.error .invalidVariadic, tt)
      else internBy complete (.func ps rs v) tt := by
  show (do
    if v = true ∧ ps.getLast?.map tt.kind ≠ some .slice then throw .invalidVariadic
    internBy complete (.func ps rs v) : TypeM TypeId) tt = _
  split
  · rfl
  · rfl

theorem Request.runBy_interface (complete : TypeId → TableM Unit) (embedded : List TypeId) (direct : List Method)
    (tt : TypeTable) :
    runBy complete (.interface embedded direct) tt = match tt.mergeMethods embedded direct with
      | .error fault => (.error fault, tt)
      | .ok ms => internBy complete (.interface ms) tt := by
  show (do
    let methods ← MonadExcept.ofExcept (tt.mergeMethods embedded direct)
    internBy complete (.interface methods) : TypeM TypeId) tt = _
  cases tt.mergeMethods embedded direct with
  | error fault => rfl
  | ok ms => rfl

/-- With completion for the parts this is what the table does. -/
theorem Request.runBy_complete (c : Request) : c.runBy complete = c.run := by
  cases c <;> rfl

/-! ### Marks -/

/-- The tables have equally many types, and the same ones are marked. -/
structure SameMarks (tt tt' : TypeTable) : Prop where
  size_eq : tt'.types.size = tt.types.size
  completing_eq : ∀ t, (tt'.info t).completing = (tt.info t).completing

theorem composes_sameMarks : Composes SameMarks where
  refl _ := ⟨rfl, fun _ => rfl⟩
  trans h h' := ⟨h'.size_eq.trans h.size_eq, fun t => (h'.completing_eq t).trans (h.completing_eq t)⟩

theorem SameMarks.unmarked_eq (h : SameMarks tt tt') : tt'.unmarked = tt.unmarked := by
  ext i
  rw [mem_unmarked, mem_unmarked, h.completing_eq, Knows, h.size_eq, Knows]

theorem card_unmarked_le (tt : TypeTable) : tt.unmarked.card ≤ tt.types.size := by
  have h := Finset.card_filter_le (Finset.range tt.types.size) fun i => (tt.info ⟨i⟩).completing = false
  rwa [Finset.card_range] at h

/-- A layout is computed by completing types, and by nothing else. -/
theorem leads_computeLayout {R : TypeTable → TypeTable → Prop} (hR : Composes R) {complete : TypeId → TableM Unit}
    (hcomplete : ∀ t, Leads R (complete t)) (t : TypeId) : Leads R (computeLayout complete t) := by
  have hask (part : TypeId) : Leads R (ask complete part) :=
    leads_bind hR (hcomplete part) fun _ tt => hR.refl tt
  refine leads_bind hR (fun tt => hR.refl tt) fun tt => ?_
  dsimp only
  split
  · exact leads_pure hR _
  · exact leads_bind hR (hcomplete _) fun _ tt => hR.refl tt
  · refine leads_bind hR (leads_forM hR hcomplete _) fun _ => ?_
    exact leads_bind hR (leads_layout hR hask _ _) fun _ => leads_pure hR _

/-- Once a layout is recorded, the mark that was set for it is gone. -/
theorem sameMarks_recorded (hsettled : tt.isSettled t = false) (hmarks : SameMarks (tt.marked t) tt')
    (computed : Option Layout) :
    SameMarks tt (tt'.update t fun info =>
      { info with layout := computed.getD info.layout, completing := false }) := by
  have hsize : tt'.types.size = tt.types.size := hmarks.size_eq.trans (size_marked tt t)
  refine ⟨by simpa [update] using hsize, fun s => ?_⟩
  rw [info_update]
  split
  · next hs =>
      rw [hs.1]
      exact (Bool.or_eq_false_iff.1 hsettled).2.symm
  · next hs =>
      rw [hmarks.completing_eq, marked, info_update]
      split
      · next hs' =>
          refine absurd ⟨hs'.1, ?_⟩ hs
          rw [Knows, hsize]
          exact hs'.2
      · rfl

theorem sameMarks_completeBy {complete : TypeId → TableM Unit} (hcomplete : ∀ t, Leads SameMarks (complete t))
    (t : TypeId) : Leads SameMarks (completeBy complete t) := by
  intro tt
  cases hsettled : tt.isSettled t with
  | true =>
      rw [completeBy_settled hsettled]
      exact composes_sameMarks.refl tt
  | false =>
      rw [completeBy_unsettled hsettled]
      exact sameMarks_recorded hsettled (leads_computeLayout composes_sameMarks hcomplete t (tt.marked t)) _

theorem sameMarks_completeWithin (room : Nat) (t : TypeId) : Leads SameMarks (completeWithin room t) := by
  induction room generalizing t with
  | zero => exact leads_pure composes_sameMarks _
  | succ room ih => exact sameMarks_completeBy ih t

theorem sameMarks_complete (t : TypeId) : Leads SameMarks (complete t) :=
  fun tt => sameMarks_completeWithin tt.types.size t tt

/-! ### Operations that do the same -/

/-- From every table with the marks of `tt`, the operations do the same, and leave the marks as they are. -/
def Coincide (tt : TypeTable) (m m' : TableM α) : Prop :=
  ∀ tt', SameMarks tt tt' → m tt' = m' tt' ∧ SameMarks tt (m tt').2

theorem coincide_pure (x : α) : Coincide tt (pure x) (pure x) :=
  fun _ hmarks => ⟨rfl, hmarks⟩

theorem coincide_bind {m m' : TableM α} {f f' : α → TableM β} (hm : Coincide tt m m')
    (hf : ∀ x, Coincide tt (f x) (f' x)) : Coincide tt (m >>= f) (m' >>= f') := by
  intro tt' hmarks
  obtain ⟨heq, hmarks'⟩ := hm tt' hmarks
  obtain ⟨heq', hmarks''⟩ := hf (m tt').1 _ hmarks'
  refine ⟨?_, hmarks''⟩
  show f (m tt').1 (m tt').2 = f' (m' tt').1 (m' tt').2
  rw [← heq]
  exact heq'

/-- Both operations look at the table, and go on according to it. -/
theorem coincide_get {f f' : TypeTable → TableM α} (hf : ∀ tt', SameMarks tt tt' → Coincide tt (f tt') (f' tt')) :
    Coincide tt (get >>= f) (get >>= f') :=
  fun tt' hmarks => hf tt' hmarks tt' hmarks

theorem coincide_except_bind {m m' : TypeM α} {f f' : α → TypeM β} (hm : Coincide tt m.run m'.run)
    (hf : ∀ x, Coincide tt (f x).run (f' x).run) : Coincide tt (m >>= f).run (m' >>= f').run := by
  rw [ExceptT.run_bind, ExceptT.run_bind]
  refine coincide_bind hm ?_
  rintro (fault | x)
  · exact coincide_pure _
  · exact hf x

theorem coincide_lift {m m' : TableM α} (hm : Coincide tt m m') :
    Coincide tt (liftM m : TypeM α).run (liftM m' : TypeM α).run :=
  coincide_bind hm fun _ => coincide_pure _

theorem coincide_forM {f f' : α → TableM PUnit} (hf : ∀ x, Coincide tt (f x) (f' x)) (xs : List α) :
    Coincide tt (xs.forM f) (xs.forM f') := by
  induction xs with
  | nil => exact coincide_pure _
  | cons x xs ih => exact coincide_bind (hf x) fun _ => ih

theorem coincide_mapM {f f' : α → TypeM β} (hf : ∀ x, Coincide tt (f x).run (f' x).run) (xs : List α) :
    Coincide tt (xs.mapM f).run (xs.mapM f').run := by
  induction xs with
  | nil => exact coincide_pure _
  | cons x xs ih =>
      rw [List.mapM_cons, List.mapM_cons]
      exact coincide_except_bind (hf x) fun _ => coincide_except_bind ih fun _ => coincide_pure _

section Parts

variable {query query' : TypeId → TableM Layout} (hquery : ∀ t, Coincide tt (query t) (query' t))
include hquery

theorem coincide_methods (ms : List Method) (h : Fingerprint) :
    Coincide tt (h.methods query ms) (h.methods query' ms) := by
  induction ms generalizing h with
  | nil => exact coincide_pure _
  | cons m ms ih =>
      refine coincide_bind (hquery m.typ) fun l => ?_
      dsimp only
      split
      · exact coincide_pure _
      · exact ih _

theorem coincide_layout (target : Target) (s : Shape) :
    Coincide tt (s.layout target query).run (s.layout target query').run := by
  cases s with
  | basic | named | builtin => exact coincide_pure _
  | slice e | pointer e | chan e d =>
      exact coincide_except_bind (coincide_lift (hquery e)) fun _ => coincide_pure _
  | map k e =>
      exact coincide_except_bind (coincide_lift (hquery k)) fun _ =>
        coincide_except_bind (coincide_lift (hquery e)) fun _ => coincide_pure _
  | func ps rs v =>
      exact coincide_except_bind (coincide_mapM (fun t => coincide_lift (hquery t)) _) fun _ => coincide_pure _
  | interface ms =>
      exact coincide_except_bind (coincide_lift (coincide_methods hquery ms _)) fun _ => coincide_pure _
  | array e n =>
      rw [Shape.layout, Shape.layout]
      split
      · exact coincide_pure _
      · refine coincide_except_bind (coincide_lift (hquery e)) fun l => ?_
        cases l.array target n with
        | ok => exact coincide_pure _
        | error => exact coincide_pure _

end Parts

section Completion

variable {complete complete' : TypeId → TableM Unit} (hcomplete : ∀ t, Coincide tt (complete t) (complete' t))
include hcomplete

theorem coincide_ask (part : TypeId) : Coincide tt (ask complete part) (ask complete' part) :=
  coincide_bind (hcomplete part) fun _ => coincide_get fun _ _ => coincide_pure _

theorem coincide_computeLayout (t : TypeId) :
    Coincide tt (computeLayout complete t) (computeLayout complete' t) := by
  refine coincide_get fun tt' _ => ?_
  dsimp only
  split
  · exact coincide_pure _
  · exact coincide_bind (hcomplete _) fun _ => coincide_get fun _ _ => coincide_pure _
  · refine coincide_bind (coincide_forM hcomplete _) fun _ => ?_
    exact coincide_bind (coincide_layout (coincide_ask hcomplete) _ _) fun _ => coincide_pure _

end Completion

/-- What follows an operation follows from its outcome and its table. -/
theorem run_bind_congr {m m' : TypeM α} {f : α → TypeM β} (h : m tt = m' tt) : (m >>= f) tt = (m' >>= f) tt := by
  show (match m tt with | (a, s) => ExceptT.bindCont f a s) = (match m' tt with | (a, s) => ExceptT.bindCont f a s)
  rw [h]

/-! ### The depth suffices -/

/-- The rule needs to be right about the parts of a type only where the type is marked. -/
theorem completeBy_congr {complete complete' : TypeId → TableM Unit}
    (hcomplete : tt.isSettled t = false → ∀ part, Coincide (tt.marked t) (complete part) (complete' part)) :
    completeBy complete t tt = completeBy complete' t tt := by
  cases hsettled : tt.isSettled t with
  | true => rw [completeBy_settled hsettled, completeBy_settled hsettled]
  | false =>
      have hcomputed := coincide_computeLayout (hcomplete hsettled) t _ (composes_sameMarks.refl _)
      rw [completeBy_unsettled hsettled, completeBy_unsettled hsettled, hcomputed.1]

/-- A handle that was not given out stands on nothing. -/
theorem completeBy_unknown {complete : TypeId → TableM Unit} (ht : ¬tt.Knows t) :
    completeBy complete t tt = ((), tt) := by
  have hupdate (f : TypeInfo → TypeInfo) : tt.update t f = tt := by
    have hmodify : tt.types.modify t.index f = tt.types := by
      refine Array.ext (Array.size_modify ..) fun i _ hi => ?_
      rw [Array.getElem_modify, if_neg]
      rintro rfl
      exact ht hi
    rw [update, hmodify]
  have hmarked : tt.marked t = tt := hupdate _
  have hshape : tt.shape t = .basic .invalid := by rw [shape, info_of_not_knows ht]
  have hsettled : tt.isSettled t = false := by
    rw [isSettled, layout, info_of_not_knows ht]
    rfl
  have hcomputed : computeLayout complete t tt = (some {}, tt) := by
    rw [computeLayout_built (by rw [hshape]; rfl), hshape]
    rfl
  rw [completeBy_unsettled hsettled, hmarked, hcomputed, hupdate]

/-- Deep enough for the types that are not marked, it does not matter what would happen below.  By induction on the
depth: entering an unmarked type leaves one less of them for the types that it stands on. -/
theorem unrolled_eq (bottom : TypeId → TableM Unit) {depth room : Nat} (hdepth : tt.unmarked.card < depth)
    (hroom : tt.unmarked.card ≤ room) (t : TypeId) : unrolled bottom depth t tt = completeWithin room t tt := by
  induction depth generalizing tt room t with
  | zero => exact absurd hdepth (Nat.not_lt_zero _)
  | succ depth ih =>
      show completeBy (unrolled bottom depth) t tt = _
      by_cases ht : tt.Knows t
      · cases hsettled : tt.isSettled t with
        | true =>
            rw [completeBy_settled hsettled]
            cases room with
            | zero => rfl
            | succ room => rw [completeWithin_settled hsettled]
        | false =>
            have hcard := card_unmarked_marked ht (Bool.or_eq_false_iff.1 hsettled).2
            obtain ⟨room, rfl⟩ : ∃ room', room = room' + 1 := ⟨room - 1, by omega⟩
            rw [completeWithin_succ]
            refine completeBy_congr fun _ part tt' hmarks => ?_
            have hunmarked := congrArg Finset.card hmarks.unmarked_eq
            have heq : unrolled bottom depth part tt' = completeWithin room part tt' := ih (by omega) (by omega) part
            refine ⟨heq, ?_⟩
            rw [heq]
            exact composes_sameMarks.trans hmarks (sameMarks_completeWithin room part tt')
      · rw [completeBy_unknown ht]
        cases room with
        | zero => rfl
        | succ room => rw [completeWithin_succ, completeBy_unknown ht]

/-- Applied to itself more often than there are types, the rule is completion. -/
theorem unrolled_eq_complete (bottom : TypeId → TableM Unit) {depth : Nat} (hdepth : tt.types.size < depth)
    (t : TypeId) : unrolled bottom depth t tt = complete t tt :=
  unrolled_eq bottom (Nat.lt_of_le_of_lt (card_unmarked_le tt) hdepth) (card_unmarked_le tt) t

theorem coincide_unrolled (bottom : TypeId → TableM Unit) {depth : Nat} (hdepth : tt.types.size < depth)
    (t : TypeId) : Coincide tt (unrolled bottom depth t) (complete t) := by
  intro tt' hmarks
  have heq : unrolled bottom depth t tt' = complete t tt' :=
    unrolled_eq_complete bottom (by rw [hmarks.size_eq]; exact hdepth) t
  refine ⟨heq, ?_⟩
  rw [heq]
  exact composes_sameMarks.trans hmarks (sameMarks_complete t tt')

/-- Completion is the rule of completion, applied to completion. -/
theorem completeBy_complete (t : TypeId) (tt : TypeTable) : completeBy complete t tt = complete t tt := by
  have hdeep := unrolled_eq_complete complete (Nat.lt_succ_of_lt (Nat.lt_succ_self tt.types.size)) t
  rw [← hdeep]
  refine completeBy_congr fun _ part tt' hmarks => ?_
  have hsize : tt'.types.size = tt.types.size := hmarks.size_eq.trans (size_marked tt t)
  refine ⟨(unrolled_eq_complete complete (by omega) part).symm, ?_⟩
  exact composes_sameMarks.trans hmarks (sameMarks_complete part tt')

section Constructors

variable {complete complete' : TypeId → TableM Unit} (hcomplete : ∀ t, Coincide tt (complete t) (complete' t))
include hcomplete

theorem internBy_congr (s : Shape) : internBy complete s tt = internBy complete' s tt := by
  have hlayout : s.layout tt.target (ask complete) tt = s.layout tt.target (ask complete') tt :=
    (coincide_layout (coincide_ask hcomplete) tt.target s tt (composes_sameMarks.refl tt)).1
  rw [internBy_run, internBy_run]
  cases tt.find? s with
  | some t => rfl
  | none => exact run_bind_congr hlayout

theorem Request.runBy_congr (c : Request) : c.runBy complete tt = c.runBy complete' tt := by
  cases c with
  | basic k hk => rfl
  | func ps rs v =>
      rw [runBy_func, runBy_func]
      split
      · rfl
      · exact internBy_congr hcomplete _
  | interface embedded direct =>
      rw [runBy_interface, runBy_interface]
      cases tt.mergeMethods embedded direct with
      | error fault => rfl
      | ok ms => exact internBy_congr hcomplete _
  | array | slice | pointer | chan | map | builtin => exact internBy_congr hcomplete _

end Constructors

/-! ### The main result -/

/-- In every table that can be reached no type is marked, and none is marked after one more operation.  A question
about the layout of a type, and every request for a type, nests completion no deeper than there are types: below that
depth anything may stand, and the answers and the tables afterwards are the same.  Completion is therefore what its
rule says, with completion for the parts. -/
theorem completion_ends {target : Target} (h : Reaches (new target) tt) :
    tt.AtRest ∧ (∀ op : Operation, (∀ t ∈ op.handles, tt.Knows t) → (op.run tt).AtRest) ∧
      (∀ t, completeBy complete t tt = complete t tt) ∧
      ∀ (bottom : TypeId → TableM Unit) (depth : Nat), tt.types.size < depth →
        (∀ t, unrolled bottom depth t tt = complete t tt) ∧
        (∀ t, ask (unrolled bottom depth) t tt = completed t tt) ∧
        ∀ c : Request, c.runBy (unrolled bottom depth) tt = c.run tt := by
  have hrest {tt : TypeTable} (h : Reaches (new target) tt) : tt.AtRest :=
    (h.advances (faithful_new target)).atRest (atRest_new target)
  refine ⟨hrest h, fun op hknown => hrest (h.step op hknown), fun t => completeBy_complete t tt, ?_⟩
  intro bottom depth hdepth
  have hcoincide := coincide_unrolled bottom hdepth
  refine ⟨fun t => unrolled_eq_complete bottom hdepth t, fun t => ?_, fun c => ?_⟩
  · exact (coincide_ask hcoincide t tt (composes_sameMarks.refl tt)).1
  · rw [← c.runBy_complete]
    exact c.runBy_congr hcoincide

/-- A declared type that contains itself by value, and two that are pointers to each other. -/
def knot : TypeTable :=
  let tt := (newNamed "p" "A" (new .amd64)).2
  let tt := (newNamed "p" "B" tt).2
  let tt := (newNamed "p" "C" tt).2
  let tt := (newArray ⟨26⟩ 2 tt).2
  let tt := (newPointer ⟨28⟩ tt).2
  let tt := (newPointer ⟨27⟩ tt).2
  let tt := (setUnderlying ⟨26⟩ ⟨29⟩ tt).2
  let tt := (setUnderlying ⟨27⟩ ⟨30⟩ tt).2
  (setUnderlying ⟨28⟩ ⟨31⟩ tt).2

theorem reaches_knot : Reaches (new .amd64) knot := by
  have ha : Reaches (new .amd64) _ := .step .refl (.named "p" "A") (by decide +kernel)
  have hb := ha.step (.named "p" "B") (by decide +kernel)
  have hc := hb.step (.named "p" "C") (by decide +kernel)
  have harray := hc.step (.array ⟨26⟩ 2) (by decide +kernel)
  have hpointers := (harray.step (.pointer ⟨28⟩) (by decide +kernel)).step (.pointer ⟨27⟩) (by decide +kernel)
  have hbound := hpointers.step (.bind ⟨26⟩ ⟨29⟩) (by decide +kernel)
  exact (hbound.step (.bind ⟨27⟩ ⟨30⟩) (by decide +kernel)).step (.bind ⟨28⟩ ⟨31⟩) (by decide +kernel)

/-- The type that contains itself is asked about and stays unfinished, a pointer into the other two is built, and no
type is marked. -/
theorem completion_ends_knot :
    Reaches (new .amd64) knot ∧ knot.types.size = 32 ∧ knot.AtRest ∧
      (∀ bottom, unrolled bottom 33 ⟨26⟩ knot = complete ⟨26⟩ knot) ∧
      ((complete ⟨26⟩ knot).2.layout ⟨26⟩).isComplete = false ∧ (Operation.run knot (.complete ⟨26⟩)).AtRest ∧
      ∀ bottom, (Request.slice ⟨27⟩).runBy (unrolled bottom 33) knot = newSlice ⟨27⟩ knot := by
  have hsize : knot.types.size = 32 := by decide +kernel
  have hdepth : knot.types.size < 33 := by rw [hsize]; decide
  obtain ⟨hrest, hafter, -, hends⟩ := completion_ends reaches_knot
  refine ⟨reaches_knot, hsize, hrest, fun bottom => (hends bottom 33 hdepth).1 ⟨26⟩, by decide +kernel,
    hafter (.complete ⟨26⟩) (by decide +kernel), fun bottom => (hends bottom 33 hdepth).2.2 (.slice ⟨27⟩)⟩

end GoSource.TypeTable
