import GoSource.Proofs.Package.Isolation

/-!
# The order of declarations

The declarations of a file can be resolved in another order than that in which they were written.

* **`Package.declared?_collected`**: the names of a file are those of its declarations, and where no two declarations
  have a name in common their order does not matter.
-/

namespace GoSource

open TypeTable

variable {file : ParsedFile} {pkg : Package} {decl : NodeId} {decls decls' : List NodeId} {name : String}

namespace Package

/-! ### The names of a declaration -/

/-- The entry of a name in a declaration by itself. -/
def declares? (file : ParsedFile) (decl : NodeId) (name : String) : Option Entry :=
  (collect file { types := {}, outer := [] } decl).declared? name

/-- A way of changing packages that gives a name an entry, if it has none. -/
def Adds (name : String) (f : Package → Package) : Prop :=
  ∃ added, ∀ pkg, (f pkg).declared? name = (pkg.declared? name).or added

theorem Adds.unchanged {f : Package → Package} (h : ∀ pkg, (f pkg).scope = pkg.scope) : Adds name f := by
  refine ⟨none, fun pkg => ?_⟩
  rw [declared?, h, Option.or_none, declared?]

theorem Adds.foldl {α : Type} {f : Package → α → Package} (xs : List α) (h : ∀ x, Adds name (f · x)) :
    Adds name (xs.foldl f ·) := by
  induction xs with
  | nil => exact .unchanged fun _ => rfl
  | cons x rest ih =>
      obtain ⟨first, hfirst⟩ := h x
      obtain ⟨others, hothers⟩ := ih
      refine ⟨first.or others, fun pkg => ?_⟩
      dsimp only at hfirst hothers ⊢
      rw [List.foldl_cons, hothers, hfirst, Option.or_assoc]

/-- Of two declarations of a name, the first one counts. -/
theorem declared?_entered {scope : List (String × Entry)} {anonymous : Bool} {declared : String} {entry : Entry}
    (h : anonymous = true ∨ scope.lookup declared = none) :
    (if anonymous then scope else (declared, entry) :: scope).lookup name =
      (scope.lookup name).or (if !anonymous && name == declared then some entry else none) := by
  cases anonymous with
  | true => simp
  | false =>
      have hfree : scope.lookup declared = none := h.resolve_left nofun
      rw [if_neg nofun, List.lookup_cons]
      by_cases hname : name = declared
      · subst hname
        simp [hfree]
      · have hne : (name == declared) = false := beq_eq_false_iff_ne.2 hname
        simp [hne]

theorem scope_schedule (pkg : Package) (entry : Entry) : (pkg.schedule entry).scope = pkg.scope := by
  rw [schedule]
  split
  · rfl
  · rfl

/-- A name that is taken is reported, another one is entered. -/
theorem adds_taken (name : String) (anonymous : Bool) (declared : String) (entry : Entry) {f g : Package → Package}
    (hf : ∀ pkg, (f pkg).scope = pkg.scope)
    (hg : ∀ pkg, (g pkg).scope = if anonymous then pkg.scope else (declared, entry) :: pkg.scope) :
    Adds name fun pkg => if !anonymous && pkg.isTaken declared then f pkg else g pkg := by
  refine ⟨if !anonymous && name == declared then some entry else none, fun pkg => ?_⟩
  dsimp only
  by_cases htaken : (!anonymous && pkg.isTaken declared) = true
  · rw [if_pos htaken, declared?, hf]
    obtain ⟨hnamed, hold⟩ := Bool.and_eq_true_iff.1 htaken
    by_cases hname : name = declared
    · subst hname
      obtain ⟨old, hold⟩ := Option.isSome_iff_exists.1 hold
      rw [hold, Option.some_or]
      exact hold
    · rw [beq_eq_false_iff_ne.2 hname, Bool.and_false, if_neg Bool.false_ne_true, Option.or_none]
      rfl
  · rw [if_neg htaken, declared?, hg]
    refine declared?_entered ?_
    cases anonymous with
    | true => exact .inl rfl
    | false => exact .inr (Option.not_isSome_iff_eq_none.1 fun h => htaken h)

theorem adds_declare (role : Role) (spec node : NodeId) : Adds name fun pkg => pkg.declare file role spec node := by
  by_cases hbad : file.tree.isBad node
  · refine .unchanged fun pkg => ?_
    rw [declare, if_pos hbad]
  · by_cases htype : role = .type ∧ file.tree.op spec = .kw .type
    · obtain ⟨added, hadded⟩ := adds_taken name
        (file.tree.literal node == "_" || (decide (role = .function) && file.tree.literal node == "init"))
        (file.tree.literal node) { name := node, spec, role }
        (f := fun pkg => (pkg.newType (file.tree.literal node)).2.report file node (.redeclared (file.tree.literal node)))
        (g := fun pkg => ((pkg.newType (file.tree.literal node)).2.enter _ { name := node, spec, role }
          { name := file.tree.literal node, role, typ := some (pkg.newType (file.tree.literal node)).1,
            decl := some spec }).schedule { name := node, spec, role })
        (fun _ => rfl) (fun _ => scope_schedule _ _)
      refine ⟨added, fun pkg => ?_⟩
      rw [← hadded]
      dsimp only
      rw [declare, if_neg hbad]
      dsimp only
      rw [if_pos htype]
      rfl
    · obtain ⟨added, hadded⟩ := adds_taken name
        (file.tree.literal node == "_" || (decide (role = .function) && file.tree.literal node == "init"))
        (file.tree.literal node) { name := node, spec, role }
        (f := fun pkg => pkg.report file node (.redeclared (file.tree.literal node)))
        (g := fun pkg => (pkg.enter _ { name := node, spec, role }
          { name := file.tree.literal node, role, typ := none, decl := some spec }).schedule { name := node, spec, role })
        (fun _ => rfl) (fun _ => scope_schedule _ _)
      refine ⟨added, fun pkg => ?_⟩
      rw [← hadded]
      dsimp only
      rw [declare, if_neg hbad]
      dsimp only
      rw [if_neg htype]

theorem adds_declareImport (spec : NodeId) : Adds name fun pkg => pkg.declareImport file spec := by
  unfold declareImport
  cases file.tree.part? spec 1 with
  | none => exact .unchanged fun _ => rfl
  | some pathNode =>
      dsimp only
      cases Literal.unquote? (file.tree.literal pathNode) with
      | none => exact .unchanged fun _ => rfl
      | some path => exact adds_taken name _ _ _ (fun _ => rfl) fun _ => rfl

theorem adds_declareType (spec : NodeId) : Adds name fun pkg => pkg.declareType file spec := by
  unfold declareType
  cases file.tree.part? spec 0 with
  | none => exact .unchanged fun _ => rfl
  | some node =>
      dsimp only
      split
      · exact adds_declare _ _ _
      · exact .unchanged fun _ => rfl
      · exact .unchanged fun _ => rfl

theorem adds_declareValues (role : Role) (spec : NodeId) : Adds name fun pkg => pkg.declareValues file role spec := by
  unfold declareValues
  split
  · exact .unchanged fun _ => rfl
  · cases file.tree.part? spec 0 with
    | none => exact .unchanged fun _ => rfl
    | some names => exact .foldl _ fun node => adds_declare _ _ _

theorem adds_declareFunction (decl : NodeId) : Adds name fun pkg => pkg.declareFunction file decl := by
  unfold declareFunction
  cases file.tree.part? decl 1 with
  | none => exact .unchanged fun _ => rfl
  | some node =>
      dsimp only
      split
      · exact adds_declare _ _ _
      · exact .unchanged fun _ => rfl
      · exact .unchanged fun _ => rfl

theorem adds_collect (decl : NodeId) : Adds name fun pkg => pkg.collect file decl := by
  unfold collect
  dsimp only
  split
  · exact .unchanged fun _ => rfl
  · split
    · exact .foldl _ fun spec => adds_declareImport spec
    · exact .foldl _ fun spec => adds_declareValues _ spec
    · exact .foldl _ fun spec => adds_declareValues _ spec
    · exact .foldl _ fun spec => adds_declareType spec
    · exact adds_declareFunction decl
    · exact .unchanged fun _ => rfl

/-- A declaration adds its names to those that are there. -/
theorem declared?_collect (pkg : Package) (decl : NodeId) :
    (pkg.collect file decl).declared? name = (pkg.declared? name).or (declares? file decl name) := by
  have hadds : Adds name fun pkg => pkg.collect file decl := adds_collect decl
  obtain ⟨added, hadded⟩ := hadds
  have halone := hadded { types := {}, outer := [] }
  have hempty : ({ types := {}, outer := [] } : Package).declared? name = none := rfl
  dsimp only at hadded halone
  rw [hempty, Option.none_or] at halone
  rw [hadded, declares?, halone]

/-- The names of a file are those of its declarations. -/
theorem declared?_collected (pkg : Package) (decls : List NodeId) :
    (pkg.collected file decls).declared? name = decls.findSome? (declares? file · name) := by
  have hfold (pkg : Package) (decls : List NodeId) : (decls.foldl (collect file) pkg).declared? name =
      (pkg.declared? name).or (decls.findSome? (declares? file · name)) := by
    induction decls generalizing pkg with
    | nil => rw [List.foldl_nil, List.findSome?_nil, Option.or_none]
    | cons decl rest ih =>
        rw [List.foldl_cons, ih, declared?_collect, List.findSome?_cons, Option.or_assoc]
        cases declares? file decl name with
        | none => rfl
        | some entry => rfl
  rw [collected, hfold]
  rfl

/-! ### Another order -/

/-- The names of a declaration. -/
def names (file : ParsedFile) (decl : NodeId) : List String :=
  (collect file { types := {}, outer := [] } decl).scope.map Prod.fst

/-- No two declarations have a name in common. -/
def DeclaredOnce (file : ParsedFile) (decls : List NodeId) : Prop :=
  (decls.flatMap (names file)).Nodup

instance (file : ParsedFile) (decls : List NodeId) : Decidable (DeclaredOnce file decls) :=
  inferInstanceAs (Decidable (List.Nodup _))

theorem mem_names (h : (declares? file decl name).isSome) : name ∈ names file decl := by
  obtain ⟨entry, hentry⟩ := Option.isSome_iff_exists.1 h
  obtain ⟨rest, others, hscope, -⟩ := List.lookup_eq_some_iff.1 hentry
  rw [names, hscope]
  simp

theorem DeclaredOnce.eq {decl' : NodeId} (h : DeclaredOnce file decls) (hdecl : decl ∈ decls) (hdecl' : decl' ∈ decls)
    (hname : (declares? file decl name).isSome) (hname' : (declares? file decl' name).isSome) : decl = decl' := by
  by_contra hne
  have hpairwise : decls.Pairwise (Function.onFun List.Disjoint (names file)) := (List.nodup_flatMap.1 h).2
  have : Std.Symm (Function.onFun List.Disjoint (names file)) := ⟨fun _ _ h _ hx hy => h hy hx⟩
  exact hpairwise.forall hdecl hdecl' hne (mem_names hname) (mem_names hname')

theorem findSome?_perm {f : NodeId → Option Entry} (hperm : decls.Perm decls')
    (h : ∀ decl ∈ decls, ∀ decl' ∈ decls, (f decl).isSome → (f decl').isSome → decl = decl') :
    decls.findSome? f = decls'.findSome? f := by
  induction hperm with
  | nil => rfl
  | cons decl _ ih =>
      rw [List.findSome?_cons, List.findSome?_cons,
        ih fun d hd d' hd' => h d (List.mem_cons_of_mem _ hd) d' (List.mem_cons_of_mem _ hd')]
  | swap decl decl' rest =>
      have hsame := h decl (by simp) decl' (by simp)
      simp only [List.findSome?_cons]
      cases hfirst : f decl with
      | none =>
          cases f decl' with
          | none => rfl
          | some entry => rfl
      | some entry =>
          cases hsecond : f decl' with
          | none => rfl
          | some entry' =>
              rw [hfirst, hsecond] at hsame
              rw [hsame rfl rfl, hsecond] at hfirst
              exact hfirst
  | trans hperm _ ih ih' =>
      rw [ih h, ih' fun d hd d' hd' => h d (hperm.mem_iff.2 hd) d' (hperm.mem_iff.2 hd')]

/-- Whether a node at the top level declares constants, variables, types or functions. -/
def isMovable (tree : Tree) (decl : NodeId) : Bool :=
  match tree.op decl with
  | .kw .const | .kw .var | .kw .type | .kw .func => true
  | _ => false

/-- The same declarations in another order, the package clause and the imports in their places. -/
structure Rearranged (tree : Tree) (decls decls' : List NodeId) : Prop where
  perm : decls.Perm decls'
  fixed : decls.filter (!isMovable tree ·) = decls'.filter (!isMovable tree ·)

theorem Rearranged.pathOf_eq {tree : Tree} (h : Rearranged tree decls decls') :
    pathOf tree decls = pathOf tree decls' := by
  have hclause (decls : List NodeId) :
      decls.find? (fun d => tree.op d = .kw .package && !tree.isBad d) =
        (decls.filter (!isMovable tree ·)).find? fun d => tree.op d = .kw .package && !tree.isBad d := by
    rw [List.find?_filter]
    congr 1
    funext d
    by_cases hop : tree.op d = .kw .package
    · simp [isMovable, hop]
    · simp [hop]
  rw [pathOf, pathOf, hclause, hclause decls', h.fixed]

end Package

/-- Where no two declarations have a name in common, every name has the same entry in another order. -/
theorem names_by_order {pkg' : Package} (horder : Package.Rearranged file.tree decls decls')
    (honce : Package.DeclaredOnce file decls) (name : String) :
    (pkg.collected file decls).declared? name = (pkg'.collected file decls').declared? name := by
  rw [Package.declared?_collected, Package.declared?_collected]
  exact Package.findSome?_perm horder.perm fun _ h _ h' => honce.eq h h'

end GoSource
