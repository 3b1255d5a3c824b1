import GoSource.Package.Resolve
import GoSource.Proofs.Grammar.Forest

/-!
# Resolution descends

A question about a node leads to questions about its parts, which are smaller, or to a declaration; and a
declaration that is begun is no longer pending.  So the recursion of resolution has an end, however the
declarations of a file refer to one another.

* **`Meanings.unfold`** unfolds the recursion a number of times, without asking whether a question goes round in
  a circle.
* **`Same w r a b`**: from packages of weight at most `w` at rank `r`, the actions `a` and `b` do the same.
* One lemma a rule: it does the same with meanings that agree below its weight.
* **`resolution_descends`**: what lies below the unfoldings is never reached.
-/

namespace GoSource

variable {α β : Type} {file : ParsedFile} {w r : Nat} {m m' : Meanings}

/-! ### Unfolding -/

namespace Meanings

/-- The meanings by the rules of resolution, where the rules refer to `m`. -/
def next (m : Meanings) : Meanings where
  type := m.typeExpr
  constant := m.constantExpr
  value := m.valueExpr
  declaration := m.resolve

/-- The recursion of resolution unfolded `n` times, down to `bottom`. -/
def unfold (bottom : Meanings) : Nat → Meanings
  | 0 => bottom
  | n + 1 => (unfold bottom n).next

end Meanings

/-- Resolves what has been collected, and the methods, by given meanings. -/
def ResolveM.resolveAllWith (m : Meanings) (methods : List NodeId) : ResolveM Unit := do
  let entries := (← get).tasks.map Task.entry
  entries.forM m.resolve
  methods.forM fun decl => isolate (m.method decl)
  entries.forM checkFinite

namespace Package

/-- The names of some declarations, with nothing resolved yet. -/
def collected (file : ParsedFile) (decls : List NodeId) (pkg : Package) : Package :=
  decls.foldl (collect file) (pkg.reset (pathOf file.tree decls))

/-- Resolves some of the declarations of a file by given meanings. -/
def resolveDeclsWith (m : Meanings) (file : ParsedFile) (decls : List NodeId) (pkg : Package) :
    Except Failure Unit × Package :=
  ResolveM.resolveAllWith m (decls.filter (isMethod file.tree)) file (pkg.collected file decls)

/-- How often the recursion has to be unfolded at most. -/
def depth (file : ParsedFile) (decls : List NodeId) (pkg : Package) : Nat :=
  (pkg.collected file decls).weight file.tree.size (file.tree.size + 1)

end Package

/-! ### Pending declarations -/

namespace Package

variable {pkg pkg' : Package} {spec : NodeId} {size : Nat}

theorem weight_le_of_pendingCount_le (h : pkg'.pendingCount ≤ pkg.pendingCount) (size r : Nat) :
    pkg'.weight size r ≤ pkg.weight size r :=
  Nat.add_le_add_right (Nat.mul_le_mul_right _ h) _

theorem weight_lt_of_lt (pkg : Package) (size : Nat) {r r' : Nat} (h : r < r') : pkg.weight size r < pkg.weight size r' :=
  Nat.add_lt_add_left h _

/-- Where one declaration less is pending, all nodes weigh less than a declaration did. -/
theorem weight_le_of_pendingCount_lt (h : pkg'.pendingCount < pkg.pendingCount) :
    pkg'.weight size (size + 1) ≤ pkg.weight size declarationRank := by
  have hmul : (pkg'.pendingCount + 1) * (size + 1) ≤ pkg.pendingCount * (size + 1) := Nat.mul_le_mul_right _ h
  rw [Nat.succ_mul] at hmul
  exact hmul

/-- No declaration becomes pending. -/
theorem pendingCount_setProgress_le (pkg : Package) (spec : NodeId) {progress : Progress}
    (h : progress ≠ .pending) : (pkg.setProgress spec progress).pendingCount ≤ pkg.pendingCount := by
  unfold pendingCount setProgress
  rw [List.countP_map]
  refine List.countP_mono_left fun task _ htask => ?_
  simp only [Function.comp_apply, decide_eq_true_eq] at htask ⊢
  split at htask
  · exact absurd htask h
  · exact htask

/-- A pending declaration that is begun is pending no more. -/
theorem pendingCount_setProgress_lt (hpending : pkg.progress? spec = some .pending) {progress : Progress}
    (h : progress ≠ .pending) : (pkg.setProgress spec progress).pendingCount < pkg.pendingCount := by
  have hle (tasks : List Task) :
      (tasks.map fun task => if task.entry.spec = spec then { task with progress } else task).countP
        (·.progress = .pending) ≤ tasks.countP (·.progress = .pending) :=
    pendingCount_setProgress_le { pkg with tasks } spec h
  unfold progress? at hpending
  unfold pendingCount setProgress
  dsimp only
  generalize pkg.tasks = tasks at hpending
  induction tasks with
  | nil => cases hpending
  | cons task rest ih =>
      rw [List.find?_cons] at hpending
      rw [List.map_cons, List.countP_cons, List.countP_cons]
      by_cases hspec : task.entry.spec = spec
      · rw [decide_eq_true hspec] at hpending
        have htask : task.progress = .pending := Option.some.inj hpending
        rw [if_pos hspec, if_neg (by simpa using h), if_pos (by simpa using htask)]
        exact Nat.lt_succ_of_le (hle rest)
      · rw [decide_eq_false hspec] at hpending
        rw [if_neg hspec]
        exact Nat.add_lt_add_right (ih hpending) _

end Package

/-! ### Actions that do the same -/

/-- From every package of weight at most `w` at rank `r` the actions do the same, and no declaration becomes
pending. -/
def Same (file : ParsedFile) (w r : Nat) (a b : ResolveM α) : Prop :=
  ∀ pkg : Package, pkg.weight file.tree.size r ≤ w →
    a file pkg = b file pkg ∧ (a file pkg).2.pendingCount ≤ pkg.pendingCount

namespace ResolveM

/-- Running one action after another, as far as it comes. -/
theorem bind_run (a : ResolveM α) (f : α → ResolveM β) (file : ParsedFile) (pkg : Package) :
    (a >>= f) file pkg = match a file pkg with
      | (.ok x, pkg') => f x file pkg'
      | (.error failure, pkg') => (.error failure, pkg') := by
  show ExceptT.bindCont (fun x => f x file) (a file pkg).1 (a file pkg).2 = _
  cases a file pkg with
  | mk outcome pkg' =>
      cases outcome with
      | ok x => rfl
      | error failure => rfl

end ResolveM

namespace Same

variable {a b : ResolveM α}

/-- An action that begins and ends no declaration. -/
theorem still (h : ∀ pkg, (a file pkg).2.tasks = pkg.tasks) : Same file w r a a := by
  intro pkg _
  refine ⟨rfl, ?_⟩
  rw [Package.pendingCount, h]
  exact Nat.le_refl _

theorem bind {f g : α → ResolveM β} (h : Same file w r a b) (hf : ∀ x, Same file w r (f x) (g x)) :
    Same file w r (a >>= f) (b >>= g) := by
  intro pkg hpkg
  obtain ⟨heq, hle⟩ := h pkg hpkg
  rw [ResolveM.bind_run, ResolveM.bind_run, ← heq]
  cases hrun : a file pkg with
  | mk outcome pkg' =>
      rw [hrun] at hle
      cases outcome with
      | ok x =>
          obtain ⟨heq', hle'⟩ := hf x pkg' (Nat.le_trans (Package.weight_le_of_pendingCount_le hle _ _) hpkg)
          exact ⟨heq', Nat.le_trans hle' hle⟩
      | error failure => exact ⟨rfl, hle⟩

theorem pure (x : α) : Same file w r (Pure.pure x) (Pure.pure x) :=
  still fun _ => rfl

theorem map {f : α → β} (h : Same file w r a b) : Same file w r (f <$> a) (f <$> b) := by
  rw [map_eq_pure_bind, map_eq_pure_bind]
  exact h.bind fun x => .pure (f x)

theorem ite {c : Prop} [Decidable c] {a' b' : ResolveM α} (ha : c → Same file w r a b)
    (hb : ¬ c → Same file w r a' b') : Same file w r (if c then a else a') (if c then b else b') := by
  by_cases hc : c
  · rw [if_pos hc, if_pos hc]
    exact ha hc
  · rw [if_neg hc, if_neg hc]
    exact hb hc

theorem fail (id : NodeId) (cause : SemanticFault) :
    Same file w r (ResolveM.fail id cause : ResolveM α) (ResolveM.fail id cause) :=
  still fun _ => rfl

/-- A condition whose violation ends the work. -/
theorem check {c : Prop} [Decidable c] {id : NodeId} {cause : SemanticFault} {f g : Unit → ResolveM α}
    (h : ¬ c → Same file w r (f ()) (g ())) :
    Same file w r (if c then ResolveM.fail id cause >>= f else f ()) (if c then ResolveM.fail id cause >>= g else g ()) :=
  ite (fun _ _ _ => ⟨rfl, Nat.le_refl _⟩) h

theorem tree {f g : Tree → ResolveM β} (h : Same file w r (f file.tree) (g file.tree)) :
    Same file w r (ResolveM.tree >>= f) (ResolveM.tree >>= g) :=
  fun pkg hpkg => h pkg hpkg

theorem get {f g : Package → ResolveM β} (h : ∀ pkg, Same file w r (f pkg) (g pkg)) :
    Same file w r (MonadState.get >>= f) (MonadState.get >>= g) :=
  fun pkg hpkg => h pkg pkg hpkg

theorem types {f g : TypeTable → ResolveM β} (h : ∀ tt, Same file w r (f tt) (g tt)) :
    Same file w r (ResolveM.types >>= f) (ResolveM.types >>= g) :=
  fun pkg hpkg => h pkg.types pkg hpkg

/-- A part of a node, which weighs less than the node. -/
theorem part {id : NodeId} {place : Nat} {f g : NodeId → ResolveM β}
    (h : ∀ c, file.tree.part? id place = some c → Same file w r (f c) (g c)) :
    Same file w r (ResolveM.part id place >>= f) (ResolveM.part id place >>= g) := by
  intro pkg hpkg
  have htree : ResolveM.tree file pkg = (.ok file.tree, pkg) := rfl
  rw [ResolveM.bind_run, ResolveM.bind_run, ResolveM.part, ResolveM.bind_run, htree]
  dsimp only
  cases hpart : file.tree.part? id place with
  | none => exact ⟨rfl, Nat.le_refl _⟩
  | some c => exact h c hpart pkg hpkg

theorem onTypes (action : TypeM α) : Same file w r (ResolveM.onTypes action) (ResolveM.onTypes action) :=
  still fun _ => rfl

theorem build (action : TypeM α) : Same file w r (ResolveM.build action) (ResolveM.build action) := by
  refine (onTypes action).bind fun outcome => ?_
  cases outcome with
  | ok x => exact .pure x
  | error fault => exact still fun _ => rfl

theorem buildAt (id : NodeId) (action : TypeM α) :
    Same file w r (ResolveM.buildAt id action) (ResolveM.buildAt id action) := by
  refine (onTypes action).bind fun outcome => ?_
  cases outcome with
  | ok x => exact .pure x
  | error fault =>
      dsimp only
      split
      · exact .fail id _
      · exact .fail id _
      · exact .fail id _
      · exact .fail id _
      · exact still fun _ => rfl

theorem update (name : NodeId) (f : Object → Object) :
    Same file w r (ResolveM.update name f) (ResolveM.update name f) :=
  still fun _ => rfl

theorem record (d : Diagnostic SemanticFault) : Same file w r (ResolveM.record d) (ResolveM.record d) :=
  still fun _ => rfl

theorem attempt (h : Same file w r a b) : Same file w r (ResolveM.attempt a) (ResolveM.attempt b) := by
  intro pkg hpkg
  obtain ⟨heq, hle⟩ := h pkg hpkg
  refine ⟨?_, hle⟩
  show (Except.ok (a file pkg).1, (a file pkg).2) = (Except.ok (b file pkg).1, (b file pkg).2)
  rw [heq]

theorem isolate {a b : ResolveM Unit} (h : Same file w r a b) :
    Same file w r (ResolveM.isolate a) (ResolveM.isolate b) := by
  refine h.attempt.bind fun outcome => ?_
  split
  · exact .pure ()
  · exact .record _
  · exact still fun _ => rfl

theorem forM {f g : β → ResolveM Unit} (xs : List β) (h : ∀ x ∈ xs, Same file w r (f x) (g x)) :
    Same file w r (xs.forM f) (xs.forM g) := by
  induction xs with
  | nil => exact .pure ()
  | cons x rest ih =>
      refine (h x List.mem_cons_self).bind fun _ => ih fun y hy => ?_
      exact h y (List.mem_cons_of_mem _ hy)

end Same

/-! ### Meanings that agree -/

/-- The meanings agree on questions of weight below `w`, and begin declarations only. -/
structure Meanings.Close (file : ParsedFile) (w : Nat) (m m' : Meanings) : Prop where
  type : ∀ (id : NodeId) (v : Nat), v < w → Same file v id.rank (m.type id) (m'.type id)
  constant : ∀ (id : NodeId) (v : Nat), v < w → Same file v id.rank (m.constant id) (m'.constant id)
  value : ∀ (id : NodeId) (v : Nat), v < w → Same file v id.rank (m.value id) (m'.value id)
  declaration : ∀ (entry : Entry) (v : Nat), v < w →
    Same file v declarationRank (m.declaration entry) (m'.declaration entry)

/-- A question of lower rank. -/
theorem Same.lower {a b : ResolveM α} {r' : Nat} (h : ∀ v < w, Same file v r' a b) (hr : r' < r) :
    Same file w r a b :=
  fun pkg hpkg => h _ (Nat.lt_of_lt_of_le (pkg.weight_lt_of_lt _ hr) hpkg) pkg (Nat.le_refl _)

theorem NodeId.rank_lt_of_part? (hforest : file.tree.Forest) {id c : NodeId} {place : Nat} (hid : id.rank ≤ r)
    (h : file.tree.part? id place = some c) : c.rank < r :=
  Nat.lt_of_lt_of_le (Nat.succ_lt_succ (hforest.ordered (Tree.mem_present_of_part? h))) hid

theorem NodeId.rank_le_of_mem_present (hforest : file.tree.Forest) {id c : NodeId} (hid : id.rank ≤ r)
    (h : c ∈ file.tree.present id) : c.rank ≤ r :=
  Nat.le_trans (Nat.le_of_lt (Nat.succ_lt_succ (hforest.ordered h))) hid

/-- The parts of a node are nodes of the tree. -/
theorem NodeId.rank_le_size (hforest : file.tree.Forest) {id c : NodeId} (h : c ∈ file.tree.present id) :
    c.rank ≤ file.tree.size :=
  Nat.lt_trans (hforest.ordered h) (Tree.index_lt_of_mem_present h)

namespace Meanings

variable {id : NodeId}

section Rules

variable (h : m.Close file w m') (hforest : file.tree.Forest)
include h

theorem Close.type_part (hforest : file.tree.Forest) {c : NodeId} {place : Nat} (hid : id.rank ≤ r)
    (hc : file.tree.part? id place = some c) : Same file w r (m.type c) (m'.type c) :=
  .lower (h.type c) (NodeId.rank_lt_of_part? hforest hid hc)

omit h in
theorem predeclared_same (id : NodeId) (name : String) :
    Same file w r
      (do
        match (← get).predeclared? name with
        | some obj => return obj
        | none => ResolveM.fail id (.undefined name))
      (do
        match (← get).predeclared? name with
        | some obj => return obj
        | none => ResolveM.fail id (.undefined name)) := by
  refine .get fun pkg => ?_
  cases pkg.predeclared? name with
  | none => exact .fail id _
  | some obj => exact .pure obj

theorem object_same (hr : 0 < r) : Same file w r (m.object id) (m'.object id) := by
  refine .tree (.check fun _ => .get fun pkg => ?_)
  cases pkg.declared? (file.tree.literal id) with
  | none => exact predeclared_same id _
  | some entry =>
      refine (Same.lower (h.declaration entry) hr).bind fun _ => .get fun pkg => ?_
      cases pkg.objects.get? entry.name with
      | none => exact predeclared_same id _
      | some obj => exact .pure obj

/-! ### Types -/

include hforest

theorem component_same (hid : id.rank ≤ r) (place : Nat) :
    Same file w r (m.component id place) (m'.component id place) := by
  refine .part fun c hc => (h.type_part hforest hid hc).bind fun t => .types fun tt => ?_
  exact .pure _

omit hforest in
theorem typeName_same (hr : 0 < r) : Same file w r (m.typeName id) (m'.typeName id) := by
  refine (object_same h hr).bind fun obj => .check fun _ => ?_
  cases obj.typ with
  | none => exact .fail id _
  | some t => exact .pure t

omit hforest in
theorem lengthLiteral_same (hr : 0 < r) : Same file w r (m.lengthLiteral id) (m'.lengthLiteral id) := by
  refine .tree ?_
  split
  · exact .pure _
  · exact .fail id _
  · refine (object_same h hr).bind fun obj => ?_
    split
    · exact .ite (fun _ => .pure _) fun _ => .fail id _
    · exact .fail id _
  · exact .fail id _

omit hforest in
theorem arrayLength_same (hr : 0 < r) : Same file w r (m.arrayLength id) (m'.arrayLength id) := by
  refine (lengthLiteral_same h hr).bind fun literal => ?_
  cases Literal.integerValue? literal with
  | none => exact .fail id _
  | some n => exact .pure n

omit h hforest in
theorem buildArray_same (id : NodeId) (elem? : Option TypeId) (length? : Option Nat) :
    Same file w r
      (match elem?, length? with
      | some elem, some length => some <$> ResolveM.buildAt id (TypeTable.newArray elem length)
      | some elem, none => some <$> ResolveM.build (TypeTable.newSlice elem)
      | none, _ => return none)
      (match elem?, length? with
      | some elem, some length => some <$> ResolveM.buildAt id (TypeTable.newArray elem length)
      | some elem, none => some <$> ResolveM.build (TypeTable.newSlice elem)
      | none, _ => return none) := by
  cases elem? with
  | none => exact .pure none
  | some elem =>
      cases length? with
      | none => exact (Same.build _).map
      | some length => exact (Same.buildAt id _).map

theorem arrayType?_same (hid : id.rank ≤ r) : Same file w r (m.arrayType? id) (m'.arrayType? id) := by
  refine (component_same h hforest hid 1).bind fun elem? => .tree ?_
  cases file.tree.part? id 0 with
  | none => exact buildArray_same id elem? none
  | some length =>
      refine (arrayLength_same h (Nat.lt_of_lt_of_le (Nat.succ_pos _) hid)).map.bind fun length? => ?_
      exact buildArray_same id elem? length?

theorem fieldTypes_same (final : Bool) (hid : id.rank ≤ r) :
    Same file w r (m.fieldTypes final id) (m'.fieldTypes final id) := by
  refine .tree (.part fun typ htyp => .ite (fun _ => .check fun _ => ?_) fun _ => ?_)
  · have hrank := Nat.le_of_lt (NodeId.rank_lt_of_part? hforest hid htyp)
    refine .part fun elem helem => (h.type_part hforest hrank helem).bind fun t => .types fun tt => ?_
    exact .ite (fun _ => .pure _) fun _ => (Same.build _).bind fun slice => .pure _
  · exact (h.type_part hforest hid htyp).bind fun t => .pure _

theorem fieldListTypes_same (mayBeVariadic : Bool) (fields : List NodeId) (hfields : ∀ x ∈ fields, x.rank ≤ r) :
    Same file w r (m.fieldListTypes mayBeVariadic fields) (m'.fieldListTypes mayBeVariadic fields) := by
  induction fields with
  | nil => exact .pure _
  | cons field rest ih =>
      refine (fieldTypes_same h hforest _ (hfields field List.mem_cons_self)).bind fun first => ?_
      refine (ih fun x hx => hfields x (List.mem_cons_of_mem _ hx)).bind fun others => ?_
      exact .pure _

theorem signaturePart_same (mayBeVariadic : Bool) (hid : id.rank ≤ r) (place : Nat) :
    Same file w r (m.signaturePart mayBeVariadic (file.tree.part? id place))
      (m'.signaturePart mayBeVariadic (file.tree.part? id place)) := by
  refine .tree (fieldListTypes_same h hforest mayBeVariadic _ fun x hx => ?_)
  cases hpart : file.tree.part? id place with
  | none =>
      rw [hpart] at hx
      cases hx
  | some list =>
      rw [hpart] at hx
      have hlist := Nat.le_of_lt (NodeId.rank_lt_of_part? hforest hid hpart)
      exact NodeId.rank_le_of_mem_present hforest hlist (List.mem_filter.1 hx).1

theorem signature?_same (hid : id.rank ≤ r) : Same file w r (m.signature? id) (m'.signature? id) := by
  refine .tree ((signaturePart_same h hforest true hid 0).bind fun params => ?_)
  refine (signaturePart_same h hforest false hid 1).bind fun results => .types fun tt => ?_
  exact .ite (fun _ => .pure _) fun _ => (Same.buildAt id _).map

theorem embedded?_same {typ : NodeId} {place : Nat} (hid : id.rank ≤ r)
    (htyp : file.tree.part? id place = some typ) : Same file w r (m.embedded? typ) (m'.embedded? typ) := by
  refine .tree (.check fun _ => (h.type_part hforest hid htyp).bind fun t => .types fun tt => ?_)
  exact .check fun _ => .ite (fun _ => .pure _) fun _ => .check fun _ => .pure _

theorem member?_same (hid : id.rank ≤ r) : Same file w r (m.member? id) (m'.member? id) := by
  refine .tree (.part fun typ htyp => ?_)
  have hrank := Nat.le_of_lt (NodeId.rank_lt_of_part? hforest hid htyp)
  cases file.tree.part? id 0 with
  | none =>
      refine (embedded?_same h hforest hid htyp).bind fun t => ?_
      exact .pure _
  | some names =>
      refine .part fun name _ => (signature?_same h hforest hrank).bind fun signature => ?_
      cases signature with
      | none => exact .pure _
      | some t => exact .get fun pkg => .pure _

theorem members?_same (fields : List NodeId) (hfields : ∀ x ∈ fields, x.rank ≤ r) :
    Same file w r (m.members? fields) (m'.members? fields) := by
  induction fields with
  | nil => exact .pure _
  | cons field rest ih =>
      refine (member?_same h hforest (hfields field List.mem_cons_self)).bind fun member => ?_
      cases member with
      | none => exact .pure _
      | some member =>
          refine (ih fun x hx => hfields x (List.mem_cons_of_mem _ hx)).bind fun others => ?_
          exact .pure _

theorem interfaceType?_same (hid : id.rank ≤ r) : Same file w r (m.interfaceType? id) (m'.interfaceType? id) := by
  have hmembers := members?_same h hforest ((file.tree.present id).filter (!file.tree.isBad ·)) fun x hx =>
    NodeId.rank_le_of_mem_present hforest hid (List.mem_filter.1 hx).1
  refine .tree (hmembers.bind fun members => ?_)
  cases members with
  | none => exact .pure _
  | some members => exact (Same.buildAt id _).map

theorem pointerType?_same (hid : id.rank ≤ r) : Same file w r (m.pointerType? id) (m'.pointerType? id) := by
  refine (component_same h hforest hid 0).bind fun elem => ?_
  cases elem with
  | none => exact .pure _
  | some elem => exact (Same.build _).map

theorem chanType?_same (dir : ChanDir) (hid : id.rank ≤ r) :
    Same file w r (m.chanType? id dir) (m'.chanType? id dir) := by
  refine (component_same h hforest hid 0).bind fun elem => ?_
  cases elem with
  | none => exact .pure _
  | some elem => exact (Same.build _).map

theorem mapType?_same (hid : id.rank ≤ r) : Same file w r (m.mapType? id) (m'.mapType? id) := by
  refine (component_same h hforest hid 0).bind fun key => (component_same h hforest hid 1).bind fun elem => ?_
  cases key with
  | none => exact .pure _
  | some key =>
      cases elem with
      | none => exact .pure _
      | some elem => exact (Same.build _).map

theorem typeExpr_same (hid : id.rank ≤ r) : Same file w r (m.typeExpr id) (m'.typeExpr id) := by
  refine .tree (.ite (fun _ => .pure _) fun _ => ?_)
  split
  · exact typeName_same h (Nat.lt_of_lt_of_le (Nat.succ_pos _) hid)
  · exact .part fun c hc => h.type_part hforest hid hc
  · exact (pointerType?_same h hforest hid).map
  · exact (arrayType?_same h hforest hid).map
  · exact (mapType?_same h hforest hid).map
  · exact (chanType?_same h hforest .both hid).map
  · exact (chanType?_same h hforest .send hid).map
  · exact (chanType?_same h hforest .recv hid).map
  · exact (signature?_same h hforest hid).map
  · exact (interfaceType?_same h hforest hid).map
  · exact .fail id _
  · exact .fail id _
  · exact .fail id _
  · exact .fail id _

/-! ### Values -/

omit hforest in
theorem constantName_same (hr : 0 < r) : Same file w r (m.constantName id) (m'.constantName id) := by
  refine (object_same h hr).bind fun obj => .check fun _ => ?_
  split
  · exact .pure _
  · exact .fail id _

theorem constantExpr_same (hid : id.rank ≤ r) : Same file w r (m.constantExpr id) (m'.constantExpr id) := by
  refine .tree (.check fun _ => ?_)
  dsimp only
  cases literalKind? (file.tree.op id) with
  | some kind => exact .pure _
  | none =>
      dsimp only
      split
      · exact constantName_same h (Nat.lt_of_lt_of_le (Nat.succ_pos _) hid)
      · exact .part fun c hc => .lower (h.constant c) (NodeId.rank_lt_of_part? hforest hid hc)
      · exact .fail id _
      · exact .fail id _
      · exact .fail id _
      · exact .fail id _

omit hforest in
theorem valueName_same (hr : 0 < r) : Same file w r (m.valueName id) (m'.valueName id) := by
  refine (object_same h hr).bind fun obj => ?_
  cases obj.role with
  | constant | «variable» | function => exact .pure _
  | builtin | type | package => exact .fail id _

theorem valueExpr_same (hid : id.rank ≤ r) : Same file w r (m.valueExpr id) (m'.valueExpr id) := by
  refine .tree ?_
  dsimp only
  cases literalKind? (file.tree.op id) with
  | some kind => exact .pure _
  | none =>
      dsimp only
      split
      · exact valueName_same h (Nat.lt_of_lt_of_le (Nat.succ_pos _) hid)
      · exact .part fun c hc => .lower (h.value c) (NodeId.rank_lt_of_part? hforest hid hc)
      · exact .pure _

/-! ### Declarations -/

/-- The parts of a declaration are below its rank. -/
theorem Close.type_spec {spec c : NodeId} {place : Nat} (hc : file.tree.part? spec place = some c) :
    Same file w (file.tree.size + 1) (m.type c) (m'.type c) :=
  .lower (h.type c) (Nat.lt_succ_of_le (NodeId.rank_le_size hforest (Tree.mem_present_of_part? hc)))

theorem typeSpec_same (entry : Entry) :
    Same file w (file.tree.size + 1) (m.typeSpec entry) (m'.typeSpec entry) := by
  refine .part fun c hc => (h.type_spec hforest hc).bind fun meaning => .get fun pkg => ?_
  cases pkg.objects.get? entry.name with
  | none => exact .pure _
  | some obj =>
      dsimp only
      cases obj.typ with
      | none => exact .update _ _
      | some t => exact .types fun tt => .check fun _ => .build _

omit h hforest in
theorem mismatches_same (value declared : TypeId) :
    Same file w r (ResolveM.mismatches value declared) (ResolveM.mismatches value declared) :=
  .still fun _ => rfl

theorem constantDecl_same (declared : Option TypeId) (name : NodeId) {value list : NodeId}
    (hvalue : value ∈ file.tree.present list) :
    Same file w (file.tree.size + 1) (m.constantDecl declared name value) (m'.constantDecl declared name value) := by
  have hrank : value.rank < file.tree.size + 1 := Nat.lt_succ_of_le (NodeId.rank_le_size hforest hvalue)
  refine (Same.lower (h.constant value) hrank).bind fun x => ?_
  cases declared with
  | none => exact .update _ _
  | some d => exact .types fun tt => (mismatches_same x.2 d).bind fun _ => .check fun _ => .update _ _

/-- Gives a variable its type, once that of its value is known. -/
def giveVariable (declared : Option TypeId) (name : NodeId) (inferred : Option (NodeId × TypeId)) : ResolveM Unit := do
  let typ ←
    match declared, inferred with
    | some d, some (v, t) => do
        if ← ResolveM.mismatches t d then
          let tt ← ResolveM.types
          ResolveM.fail v (.variableMismatch ((← ResolveM.tree).render v) (tt.spell t) (tt.spell d))
        pure (some d)
    | some d, none => pure (some d)
    | none, some (v, t) => some <$> ResolveM.defaultType v t
    | none, none => pure none
  ResolveM.update name ({ · with typ })

omit h hforest in
theorem giveVariable_same (declared : Option TypeId) (name : NodeId) (inferred : Option (NodeId × TypeId)) :
    Same file w r (giveVariable declared name inferred) (giveVariable declared name inferred) := by
  unfold giveVariable
  cases declared with
  | none =>
      cases inferred with
      | none => exact .update _ _
      | some x =>
          have hdefault : Same file w r (ResolveM.defaultType x.1 x.2) (ResolveM.defaultType x.1 x.2) :=
            .types fun tt => .check fun _ => .pure _
          exact hdefault.map.bind fun typ => .update _ _
  | some d =>
      cases inferred with
      | none => exact .update _ _
      | some x =>
          refine (mismatches_same x.2 d).bind fun _ => .ite (fun _ => ?_) fun _ => .update _ _
          exact .types fun tt => .tree fun pkg _ => ⟨rfl, Nat.le_refl _⟩

theorem variableDecl_same (declared : Option TypeId) (name : NodeId) {value : Option NodeId}
    (hvalue : ∀ v, value = some v → ∃ list, v ∈ file.tree.present list) :
    Same file w (file.tree.size + 1) (m.variableDecl declared name value) (m'.variableDecl declared name value) := by
  cases value with
  | none => exact giveVariable_same declared name none
  | some v =>
      obtain ⟨list, hlist⟩ := hvalue v rfl
      have hrank : v.rank < file.tree.size + 1 := Nat.lt_succ_of_le (NodeId.rank_le_size hforest hlist)
      exact (Same.lower (h.value v) hrank).bind fun t => giveVariable_same declared name (t.map fun t => (v, t))

theorem constantDecls_same (spec : NodeId) (declared : Option TypeId) (names : List NodeId) {values : List NodeId}
    (hvalues : ∀ v ∈ values, ∃ list, v ∈ file.tree.present list) :
    Same file w (file.tree.size + 1) (m.constantDecls spec declared names values)
      (m'.constantDecls spec declared names values) := by
  unfold constantDecls
  refine .check fun _ => .check fun _ => .forM _ fun x hx => ?_
  obtain ⟨list, hlist⟩ := hvalues x.2 (List.of_mem_zip hx).2
  exact constantDecl_same h hforest declared x.1 hlist

theorem variableDecls_same (spec : NodeId) (declared : Option TypeId) (names : List NodeId) {values : List NodeId}
    (hvalues : ∀ v ∈ values, ∃ list, v ∈ file.tree.present list) :
    Same file w (file.tree.size + 1) (m.variableDecls spec declared names values)
      (m'.variableDecls spec declared names values) := by
  unfold variableDecls
  refine .check fun _ => .forM _ fun x _ => ?_
  exact variableDecl_same h hforest declared x.1 fun v hv => hvalues v (List.mem_of_getElem? hv)

theorem valueSpec_same (entry : Entry) :
    Same file w (file.tree.size + 1) (m.valueSpec entry) (m'.valueSpec entry) := by
  have hvalues : ∀ v ∈ (file.tree.part? entry.spec 2).elim [] file.tree.present,
      ∃ list, v ∈ file.tree.present list := by
    intro v hv
    cases hpart : file.tree.part? entry.spec 2 with
    | none =>
        rw [hpart] at hv
        cases hv
    | some list =>
        rw [hpart] at hv
        exact ⟨list, hv⟩
  have hdecls (declared : Option TypeId) :=
    Same.ite (c := entry.role = .constant)
      (fun _ => constantDecls_same h hforest entry.spec declared
        ((file.tree.part? entry.spec 0).elim [] file.tree.present) hvalues)
      fun _ => variableDecls_same h hforest entry.spec declared
        ((file.tree.part? entry.spec 0).elim [] file.tree.present) hvalues
  refine .tree ?_
  cases htype : file.tree.part? entry.spec 1 with
  | none => exact hdecls none
  | some t => exact (h.type_spec hforest htype).map.bind fun declared => hdecls declared

theorem function_same (entry : Entry) :
    Same file w (file.tree.size + 1) (m.function entry) (m'.function entry) := by
  refine .part fun c hc => (h.type_spec hforest hc).bind fun signature => .get fun pkg => ?_
  cases pkg.objects.get? entry.name with
  | none => exact .pure _
  | some obj => exact .check fun _ => .update _ _

theorem byRole_same (entry : Entry) : Same file w (file.tree.size + 1) (m.byRole entry) (m'.byRole entry) := by
  unfold byRole
  cases entry.role with
  | type => exact typeSpec_same h hforest entry
  | constant | «variable» => exact valueSpec_same h hforest entry
  | function => exact function_same h hforest entry
  | builtin | package => exact .pure _

omit h hforest in
theorem poison_same (name : NodeId) : Same file w r (ResolveM.poison name) (ResolveM.poison name) := by
  refine .get fun pkg => ?_
  cases pkg.objects.get? name with
  | none => exact .pure _
  | some obj =>
      dsimp only
      cases obj.typ with
      | none => exact .update _ _
      | some t => exact .types fun tt => .ite (fun _ => .build _) fun _ => .pure _

/-- Ends the work on a declaration, when it is known how that went. -/
def conclude (entry : Entry) (outcome : Except Failure Unit) : ResolveM Unit := do
  modify (·.setProgress entry.spec .done)
  match outcome with
  | .ok () => return
  | .error (.declaration d) => do
      if entry.role = .type then ResolveM.poison entry.name
      ResolveM.record d
  | .error failure => throw failure

omit h hforest in
theorem conclude_same (entry : Entry) (outcome : Except Failure Unit) :
    Same file w r (conclude entry outcome) (conclude entry outcome) := by
  unfold conclude
  refine Same.bind (a := modify (·.setProgress entry.spec .done)) ?_ fun _ => ?_
  · exact fun pkg _ => ⟨rfl, pkg.pendingCount_setProgress_le entry.spec (by decide)⟩
  · split
    · exact .pure _
    · exact .ite (fun _ => (poison_same _).bind fun _ => .record _) fun _ => .record _
    · exact .still fun _ => rfl

/-- A declaration that is begun is no longer pending, so that its parts weigh less than it did. -/
theorem resolve_same (entry : Entry) :
    Same file w declarationRank (m.resolve entry) (m'.resolve entry) := by
  intro pkg hpkg
  have hrun (m : Meanings) : m.resolve entry file pkg =
      (if pkg.progress? entry.spec ≠ some .pending then pure ()
        else do
          modify (·.setProgress entry.spec .resolving)
          ResolveM.attempt (m.byRole entry) >>= conclude entry : ResolveM Unit) file pkg := rfl
  rw [hrun, hrun]
  by_cases hpending : pkg.progress? entry.spec ≠ some .pending
  · rw [if_pos hpending, if_pos hpending]
    exact ⟨rfl, Nat.le_refl _⟩
  · rw [if_neg hpending, if_neg hpending]
    have hlt : (pkg.setProgress entry.spec .resolving).pendingCount < pkg.pendingCount :=
      Package.pendingCount_setProgress_lt (Decidable.of_not_not hpending) (by decide)
    have hrest : Same file w (file.tree.size + 1) (ResolveM.attempt (m.byRole entry) >>= conclude entry)
        (ResolveM.attempt (m'.byRole entry) >>= conclude entry) :=
      (byRole_same h hforest entry).attempt.bind fun outcome => conclude_same entry outcome
    obtain ⟨heq, hle⟩ := hrest _ (Nat.le_trans (Package.weight_le_of_pendingCount_lt hlt) hpkg)
    exact ⟨heq, Nat.le_trans hle (Nat.le_of_lt hlt)⟩

theorem method_same (decl : NodeId) : Same file w (file.tree.size + 1) (m.method decl) (m'.method decl) := by
  have hbase (recv : NodeId) : Same file w (file.tree.size + 1) (receiverBase recv) (receiverBase recv) := by
    have hname (base : NodeId) : Same file w (file.tree.size + 1)
        (do
          if file.tree.op base ≠ .lit .ident then
            ResolveM.fail base (.invalidReceiver (file.tree.render base))
          return base)
        (do
          if file.tree.op base ≠ .lit .ident then
            ResolveM.fail base (.invalidReceiver (file.tree.render base))
          return base) :=
      .check fun _ => .pure _
    refine .tree ?_
    split
    · exact .part fun typ _ => .ite (fun _ => .part fun base _ => hname base) fun _ => hname typ
    · exact .fail _ _
    · exact .fail _ _
  have hreceiver (base : NodeId) (name : String) :
      Same file w (file.tree.size + 1) (receiverType base name) (receiverType base name) := by
    refine .get fun pkg => ?_
    cases pkg.declared? name with
    | none => exact .ite (fun _ => .fail _ _) fun _ => .fail _ _
    | some entry =>
        dsimp only
        split
        · exact .pure _
        · exact .fail _ _
  have hadd (nameNode : NodeId) (receiver : String) (t signature : TypeId) :
      Same file w (file.tree.size + 1) (addMethod decl nameNode receiver t signature)
        (addMethod decl nameNode receiver t signature) := by
    refine .tree (.get fun pkg => .check fun _ => ?_)
    refine Same.bind (.still fun _ => rfl) fun _ => .get fun pkg => (Same.buildAt _ _).bind fun _ => ?_
    exact .still fun _ => rfl
  refine .part fun recv _ => .part fun nameNode _ => .part fun signature hsignature => .tree (.check fun _ => ?_)
  refine (hbase recv).bind fun base => (hreceiver base _).bind fun t => .types fun tt => ?_
  split
  · exact .pure _
  · exact .fail _ _
  · exact .fail _ _
  · refine (h.type_spec hforest hsignature).bind fun t' => .types fun tt => ?_
    exact .ite (fun _ => hadd _ _ _ _) fun _ => .pure _

end Rules

/-! ### All questions -/

/-- Unfolding often enough agrees with the guarded recursion. -/
theorem meanings_close (hforest : file.tree.Forest) (bottom : Meanings) (bound n : Nat) (hbound : w ≤ bound)
    (hn : w ≤ n) : (meanings bound).Close file w (unfold bottom n) := by
  induction w using Nat.strongRecOn generalizing bound n with
  | ind w ih =>
    cases n with
    | zero =>
        have hnone (v : Nat) (hv : v < w) : False := Nat.not_lt_zero v (Nat.lt_of_lt_of_le hv hn)
        exact ⟨fun _ v hv => (hnone v hv).elim, fun _ v hv => (hnone v hv).elim,
          fun _ v hv => (hnone v hv).elim, fun _ v hv => (hnone v hv).elim⟩
    | succ n =>
        have hclose {v : Nat} (hv : v < w) : (meanings v).Close file v (unfold bottom n) :=
          ih v hv v n (Nat.le_refl v) (Nat.le_of_lt_succ (Nat.lt_of_lt_of_le hv hn))
        have hlower {r v : Nat} {pkg : Package} (hv : v < w) (hpkg : pkg.weight file.tree.size r ≤ v) :
            pkg.weight file.tree.size r < w := Nat.lt_of_le_of_lt hpkg hv
        refine ⟨fun id v hv pkg hpkg => ?_, fun id v hv pkg hpkg => ?_, fun id v hv pkg hpkg => ?_,
          fun entry v hv pkg hpkg => ?_⟩
        · have hlt := hlower hv hpkg
          rw [meanings]
          dsimp only
          rw [dif_pos (Nat.lt_of_lt_of_le hlt hbound)]
          exact typeExpr_same (hclose hlt) hforest (Nat.le_refl _) pkg (Nat.le_refl _)
        · have hlt := hlower hv hpkg
          rw [meanings]
          dsimp only
          rw [dif_pos (Nat.lt_of_lt_of_le hlt hbound)]
          exact constantExpr_same (hclose hlt) hforest (Nat.le_refl _) pkg (Nat.le_refl _)
        · have hlt := hlower hv hpkg
          rw [meanings]
          dsimp only
          rw [dif_pos (Nat.lt_of_lt_of_le hlt hbound)]
          exact valueExpr_same (hclose hlt) hforest (Nat.le_refl _) pkg (Nat.le_refl _)
        · have hlt := hlower hv hpkg
          rw [meanings]
          dsimp only
          rw [dif_pos (Nat.lt_of_lt_of_le hlt hbound)]
          exact resolve_same (hclose hlt) hforest entry pkg (Nat.le_refl _)

end Meanings

/-! ### Files -/

open Meanings in
/-- A rule that is run at the top is run with meanings that serve all its questions. -/
theorem run_same (hforest : file.tree.Forest) {n : Nat} {rule : Meanings → ResolveM α}
    (bottom : Meanings) (hr : r ≤ file.tree.size + 1)
    (hrule : ∀ {w m m'}, Meanings.Close file w m m' → Same file w r (rule m) (rule m')) :
    Same file n (file.tree.size + 1) (ResolveM.run rule) (rule (unfold bottom n)) := by
  intro pkg hpkg
  have hclose := meanings_close hforest bottom _ n (Nat.le_refl _) hpkg
  exact hrule hclose pkg (Nat.add_le_add_left hr _)

theorem checkFinite_same (entry : Entry) :
    Same file w r (ResolveM.checkFinite entry) (ResolveM.checkFinite entry) := by
  refine .ite (fun _ => .get fun pkg => ?_) fun _ => .pure _
  cases pkg.objects.get? entry.name with
  | none => exact .pure _
  | some obj =>
      dsimp only
      cases obj.typ with
      | none => exact .pure _
      | some t =>
          have hcontains : Same file w r (ResolveM.containsItself t) (ResolveM.containsItself t) :=
            .types fun tt => .ite (fun _ => .pure _) fun _ => (Same.build _).bind fun _ => .pure _
          refine hcontains.bind fun _ => .ite (fun _ => ?_) fun _ => .pure _
          exact .still fun _ => rfl

theorem resolveAll_same (hforest : file.tree.Forest) (bottom : Meanings) (n : Nat) (methods : List NodeId) :
    Same file n (file.tree.size + 1) (ResolveM.resolveAll methods)
      (ResolveM.resolveAllWith (bottom.unfold n) methods) := by
  refine .get fun pkg => (Same.forM _ fun entry _ => ?_).bind fun _ => ?_
  · exact run_same hforest bottom (Nat.zero_le _) fun hclose => Meanings.resolve_same hclose hforest entry
  refine (Same.forM _ fun decl _ => ?_).bind fun _ => Same.forM _ fun entry _ => checkFinite_same entry
  exact (run_same hforest bottom (Nat.le_refl _) fun hclose => Meanings.method_same hclose hforest decl).isolate

/-- Resolution comes to an end, whatever the declarations of a file refer to: if its recursion is unfolded as often
as the number of declarations and nodes allows, or more often, then the result is that of resolution, and does not
depend on what lies below. -/
theorem resolution_descends (file : ParsedFile) (hfile : file.Parsed) (decls : List NodeId) (pkg : Package)
    (bottom : Meanings) (n : Nat) (hn : pkg.depth file decls ≤ n) :
    pkg.resolveDeclsWith (bottom.unfold n) file decls = pkg.resolveDecls file decls := by
  have hsame := resolveAll_same hfile.forest bottom n (decls.filter (Package.isMethod file.tree))
  exact (hsame (pkg.collected file decls) hn).1.symm

/-- Types, constants and variables that refer to themselves and to one another. -/
theorem resolution_descends_cycles :
    let file := ParsedFile.ofString "a.go"
      "package p\ntype A [n]B; type B = *A; type C interface \x7b D \x7d; type D C\nconst n = m; const m = n\nvar x = y; var y = x\n"
    let pkg := Package.new (TypeTable.new .amd64)
    file.Parsed ∧
      pkg.resolveDeclsWith ((meanings 0).unfold (pkg.depth file file.decls)) file file.decls = pkg.resolveFile file := by
  intro file pkg
  have hfile : file.Parsed := ParsedFile.parsed_ofString _ _
  exact ⟨hfile, resolution_descends file hfile file.decls pkg (meanings 0) _ (Nat.le_refl _)⟩

end GoSource
