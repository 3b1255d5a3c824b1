import GoSource.Proofs.Grammar.VariableWords
import GoSource.Proofs.Package.Denotes

/-!
# Resolving a file that declares a variable

A variable takes the type that its declaration denotes.

* **`collect_variable`**: its name is entered and scheduled.
* **`resolveFile_variable`**: its type is the one denoted, and nothing is found wrong.
-/

namespace GoSource

open Grammar (NodeProp Stable IsLeaf IsList IsUnary IsPackageClause IsVariable IsVariableSpec IsVariableFile)
open ResolveM

/-! ### Annotations -/

namespace NodeMap

variable {α : Type}

theorem get?_insert_self (m : NodeMap α) (id : NodeId) (value : α) : (m.insert id value).get? id = some value := by
  rw [get?, insert]
  simp only [Array.getElem?_setIfInBounds_self, Array.size_append, Array.size_replicate]
  rw [if_pos (by omega)]
  rfl

theorem get?_modify_self (m : NodeMap α) (id : NodeId) (f : α → α) :
    (m.modify id f).get? id = (m.get? id).map f := by
  rw [get?, get?, modify]
  simp only [Array.getElem?_modify, if_true]
  cases m.slots[id.index]? with
  | none => rfl
  | some slot => rfl

end NodeMap

/-! ### Names -/

variable {file : ParsedFile} {pkg : Package} {path name : String} {P : NodeProp} {entry : Entry}

/-- A specification of one variable, with its type and without a value. -/
structure Declares (tree : Tree) (name : String) (P : NodeProp) (entry : Entry) : Prop where
  role_eq : entry.role = .variable
  op_eq : tree.op entry.spec = .tag .valueSpec
  isBad_spec : tree.isBad entry.spec = false
  isBad_name : tree.isBad entry.name = false
  literal_eq : tree.literal entry.name = name
  names_eq : ∃ names, tree.part? entry.spec 0 = some names ∧ tree.present names = [entry.name]
  type_eq : ∃ typ, tree.part? entry.spec 1 = some typ ∧ P tree typ
  values_eq : tree.part? entry.spec 2 = none

theorem declares_of_spec {tree : Tree} {spec : NodeId} (h : IsVariableSpec name P tree spec) :
    ∃ entry, entry.spec = spec ∧ Declares tree name P entry := by
  obtain ⟨atom, names, typ, hholds, hatom, ⟨_, kids, hlist, -, -, hkids⟩, htyp⟩ := h
  cases hkids with
  | @cons node _ _ _ hnode hnil =>
      cases hnil
      obtain ⟨leaf, hleaf, hword⟩ := hnode
      refine ⟨{ name := node, spec, role := .variable }, rfl, rfl, hholds.op_eq.trans hatom, hholds.isBad_eq,
        hleaf.isBad_eq, hleaf.literal_eq.trans (congrArg Prod.snd hword), ⟨names, hholds.part?_eq 0, ?_⟩,
        ⟨typ, hholds.part?_eq 1, htyp⟩, hholds.part?_eq 2⟩
      rw [Tree.present, hlist.children_eq]
      rfl

/-- A package in which one variable was entered. -/
def entered (pkg : Package) (path name : String) (entry : Entry) : Package where
  types := pkg.types
  outer := pkg.outer
  path := path
  scope := [(name, entry)]
  tasks := [{ entry }]
  objects := ({} : NodeMap Object).insert entry.name { name, role := entry.role, decl := some entry.spec }

/-- The first name of a package is entered and scheduled. -/
theorem declare_variable (h : Declares file.tree name P entry) (hblank : name ≠ "_") :
    (pkg.reset path).declare file .variable entry.spec entry.name = entered pkg path name entry := by
  have hentry : { name := entry.name, spec := entry.spec, role := .variable } = entry := by
    rw [← h.role_eq]
  have hfree : (!(name == "_" || (decide (Role.variable = .function) && name == "init"))
      && (pkg.reset path).isTaken name) = false := by
    rw [show (pkg.reset path).isTaken name = false from rfl, Bool.and_false]
  have hnamed : (name == "_" || (decide (Role.variable = .function) && name == "init")) = false := by
    simp [hblank]
  rw [Package.declare, if_neg (by rw [h.isBad_name]; exact nofun), h.literal_eq, hentry]
  dsimp only
  rw [if_neg (c := Role.variable = .type ∧ file.tree.op entry.spec = .kw .type) (fun h => nomatch h.1)]
  dsimp only
  rw [hfree, hnamed, if_neg nofun, entered, h.role_eq]
  rfl

theorem declareValues_variable (h : Declares file.tree name P entry) (hblank : name ≠ "_") :
    (pkg.reset path).declareValues file .variable entry.spec = entered pkg path name entry := by
  obtain ⟨names, hpart, hpresent⟩ := h.names_eq
  rw [Package.declareValues, if_neg (by simpa using h.op_eq), hpart]
  dsimp only
  rw [hpresent, List.foldl_cons, List.foldl_nil, declare_variable h hblank]

theorem collect_variable (pkg : Package) (path : String) {decl : NodeId} (h : IsVariable name P file.tree decl) (hblank : name ≠ "_") :
    ∃ entry, Package.collect file (pkg.reset path) decl = entered pkg path name entry ∧
      Package.isMethod file.tree decl = false ∧ Declares file.tree name P entry := by
  obtain ⟨atom, kids, hholds, hatom, -, hkids⟩ := h
  cases hkids with
  | @cons spec _ _ _ hspec hnil =>
      cases hnil
      obtain ⟨entry, rfl, hentry⟩ := declares_of_spec hspec
      have hop : file.tree.op decl = .kw .var := hholds.op_eq.trans hatom
      have hbad : file.tree.isBad decl = false := hholds.isBad_eq
      have hmethod : Package.isMethod file.tree decl = false := by
        rw [Package.isMethod, hop]
        simp
      have hsound : Package.sound file.tree decl = [entry.spec] := by
        rw [Package.sound, Tree.present, hholds.children_eq]
        show List.filter (fun n => !file.tree.isBad n) [entry.spec] = _
        simp [hentry.isBad_spec]
      refine ⟨entry, ?_, hmethod, hentry⟩
      rw [Package.collect, if_neg (by simp [hbad, hmethod]), hop, hsound]
      exact declareValues_variable hentry hblank

theorem collect_clause (pkg : Package) {clause : NodeId} (h : IsPackageClause path file.tree clause) :
    Package.collect file pkg clause = pkg ∧ Package.isMethod file.tree clause = false ∧
      ∀ decls, Package.pathOf file.tree (clause :: decls) = path := by
  obtain ⟨atom, x, hholds, hatom, -, hx⟩ := h
  have hop : file.tree.op clause = .kw .package := hholds.op_eq.trans hatom
  have hbad : file.tree.isBad clause = false := hholds.isBad_eq
  have hmethod : Package.isMethod file.tree clause = false := by
    rw [Package.isMethod, hop]
    simp
  refine ⟨?_, hmethod, fun decls => ?_⟩
  · rw [Package.collect]
    simp [hbad, hmethod, hop]
  · obtain ⟨atom', hleaf, hword⟩ := hx
    have hliteral : file.tree.literal x = path := hleaf.literal_eq.trans (congrArg Prod.snd hword)
    have hpart : file.tree.part? clause 0 = some x := hholds.part?_eq 0
    rw [Package.pathOf, List.find?_cons_of_pos (by simp [hop, hbad])]
    simp [hpart, hliteral]

/-- What a file that declares one variable leaves to be resolved. -/
theorem collected_variable (pkg : Package) (h : IsVariableFile path name P file.tree file.root) (hblank : name ≠ "_") :
    ∃ entry, Declares file.tree name P entry ∧
      pkg.resolveFile file = resolveAll [] file (entered pkg path name entry) := by
  obtain ⟨_, kids, hholds, -, -, hkids⟩ := h
  cases hkids with
  | @cons clause _ _ _ hclause hkids =>
      cases hkids with
      | @cons decl _ _ _ hdecl hnil =>
          cases hnil
          have hdecls : file.decls = [clause, decl] := by
            rw [ParsedFile.decls, Tree.present, hholds.children_eq]
            rfl
          obtain ⟨hcollect, hmethod, hpath⟩ := collect_clause (pkg.reset path) hclause
          obtain ⟨entry, hcollect', hmethod', hentry⟩ := collect_variable pkg path hdecl hblank
          refine ⟨entry, hentry, ?_⟩
          have hmethods : List.filter (Package.isMethod file.tree) [clause, decl] = [] := by
            simp [hmethod, hmethod']
          rw [Package.resolveFile, Package.resolveDecls, hdecls, hmethods, hpath, List.foldl_cons, List.foldl_cons, List.foldl_nil, hcollect, hcollect']

/-! ### Types -/

section Resolve

variable {tt : TypeTable} {error t : TypeId}

/-- A package that hosts the table still does when another name was declared in it. -/
theorem Hosts.entered (h : Hosts tt error (pkg.reset path)) (entry : Entry)
    (hkinds : ∀ k ∈ predeclaredKinds, k.name ≠ name) (herror : "error" ≠ name) :
    Hosts tt error (entered pkg path name entry) := by
  have hundeclared (other : String) (hne : other ≠ name) :
      (GoSource.entered pkg path name entry).declared? other = none := by
    show List.lookup other [(name, entry)] = none
    rw [List.lookup_cons, beq_false_of_ne hne]
    rfl
  refine ⟨h.types_eq, ?_, hundeclared "error" herror, h.error_eq.2⟩
  exact fun k hk => ⟨hundeclared k.name (hkinds k hk), (h.basic_eq k hk).2⟩

theorem Hosts.setProgress (h : Hosts tt error pkg) (spec : NodeId) (progress : Progress) :
    Hosts tt error (pkg.setProgress spec progress) :=
  ⟨h.types_eq, h.basic_eq, h.error_eq⟩

theorem modify_run (f : Package → Package) (file : ParsedFile) (pkg : Package) :
    (modify f : ResolveM Unit) file pkg = (.ok (), f pkg) := rfl

/-- The package in which an entity was given its type. -/
def typed (pkg : Package) (entry : Entry) (t : TypeId) : Package :=
  { pkg with objects := pkg.objects.modify entry.name ({ · with typ := some t }) }

/-- A variable takes the type that its declaration denotes. -/
theorem valueSpec_run (h : Declares file.tree name (Denotes tt error t) entry) (hhosts : Hosts tt error pkg)
    {bound : Nat} (hbound : pkg.weight file.tree.size file.tree.size < bound) :
    (meanings bound).valueSpec entry file pkg = (.ok (), typed pkg entry t) := by
  obtain ⟨names, hnames, hpresent⟩ := h.names_eq
  obtain ⟨typ, htyp, hdenotes⟩ := h.type_eq
  have hrank : typ.rank ≤ file.tree.size := hdenotes.index_lt
  have hlt : pkg.weight file.tree.size typ.rank < bound := by
    refine Nat.lt_of_le_of_lt ?_ hbound
    exact Nat.add_le_add_left hrank _
  have hmeaning := hdenotes.type_eq file pkg bound (.refl _) hhosts hlt
  rw [Meanings.valueSpec, run_bind (tree_run file pkg), htyp]
  dsimp only
  rw [run_bind (run_map hmeaning), hnames, h.values_eq, h.role_eq, if_neg nofun]
  dsimp only [Option.elim]
  rw [hpresent]
  rfl

/-- A declaration that is pending is resolved by its role. -/
theorem resolve_run {m : Meanings} {pkg' : Package} (hpending : pkg.progress? entry.spec = some .pending)
    (hrun : m.byRole entry file (pkg.setProgress entry.spec .resolving) = (.ok (), pkg')) :
    m.resolve entry file pkg = (.ok (), pkg'.setProgress entry.spec .done) := by
  have hattempt : attempt (m.byRole entry) file (pkg.setProgress entry.spec .resolving) = (.ok (.ok ()), pkg') := by
    rw [attempt, hrun]
  rw [Meanings.resolve, run_bind (get_run file pkg), if_neg (by simpa using hpending)]
  refine (run_bind (modify_run _ file pkg)).trans ?_
  refine (run_bind hattempt).trans ?_
  exact run_bind (modify_run _ file pkg')

theorem lookup_of_declared (h : pkg.declared? name = some entry) : pkg.lookup name = pkg.objects.get? entry.name := by
  rw [Package.lookup, h]

/-- After the one declaration there is nothing left to do. -/
theorem resolveAll_variable {pkg pkg' : Package} (hentries : pkg.tasks.map Task.entry = [entry])
    (hrole : entry.role = .variable) (hrun : run (·.resolve entry) file pkg = (.ok (), pkg')) :
    resolveAll [] file pkg = (.ok (), pkg') := by
  have hfinite : checkFinite entry file pkg' = (.ok (), pkg') := by
    rw [checkFinite, if_neg (by rw [hrole]; exact nofun)]
    rfl
  have hone (action : Entry → ResolveM Unit) (x y : Package) (h : action entry file x = (.ok (), y)) :
      [entry].forM action file x = (.ok (), y) := by
    show (action entry >>= fun _ => pure ()) file x = _
    rw [run_bind h]
    rfl
  rw [resolveAll, run_bind (get_run file pkg), hentries,
    run_bind (hone (fun entry => run (·.resolve entry)) _ _ hrun)]
  show ([entry].forM checkFinite : ResolveM Unit) file pkg' = _
  exact hone _ _ _ hfinite

/-- The variable of a file gets the type that its declaration denotes, and nothing is found wrong. -/
theorem resolveFile_variable (h : IsVariableFile path name (Denotes tt error t) file.tree file.root)
    (hhosts : Hosts tt error (pkg.reset path)) (hblank : name ≠ "_") (hkinds : ∀ k ∈ predeclaredKinds, k.name ≠ name)
    (herror : "error" ≠ name) :
    ∃ pkg', pkg.resolveFile file = (.ok (), pkg') ∧ pkg'.faults = #[] ∧ pkg'.types = pkg.types ∧
      (pkg'.lookup name).bind Object.typ = some t := by
  obtain ⟨entry, hentry, hcollected⟩ := collected_variable pkg h hblank
  have hbegun := (hhosts.entered entry hkinds herror).setProgress entry.spec .resolving
  have hpending : (entered pkg path name entry).progress? entry.spec = some .pending := by
    simp [Package.progress?, entered]
  have hbound : ((entered pkg path name entry).setProgress entry.spec .resolving).weight file.tree.size
      file.tree.size < (entered pkg path name entry).weight file.tree.size (file.tree.size + 1) := by
    simp [Package.weight, Package.pendingCount, Package.setProgress, entered]
    omega
  let resolved := typed ((entered pkg path name entry).setProgress entry.spec .resolving) entry t
  have hrole : (meanings ((entered pkg path name entry).weight file.tree.size (file.tree.size + 1))).byRole entry file
      ((entered pkg path name entry).setProgress entry.spec .resolving) = (.ok (), resolved) := by
    rw [Meanings.byRole, hentry.role_eq]
    exact valueSpec_run hentry hbegun hbound
  refine ⟨resolved.setProgress entry.spec .done,
    hcollected.trans (resolveAll_variable rfl hentry.role_eq (resolve_run hpending hrole)), rfl, rfl, ?_⟩
  have hdeclared : (resolved.setProgress entry.spec .done).declared? name = some entry := by
    show List.lookup name [(name, entry)] = some entry
    rw [List.lookup_cons, beq_self_eq_true]
  have hobject : resolved.objects.get? entry.name = some { name, role := entry.role, typ := some t, decl := some entry.spec } := by
    show (NodeMap.modify _ _ _).get? entry.name = _
    rw [NodeMap.get?_modify_self]
    show Option.map _ ((NodeMap.insert _ _ _).get? entry.name) = _
    rw [NodeMap.get?_insert_self]
    rfl
  rw [lookup_of_declared hdeclared]
  exact congrArg (Option.bind · Object.typ) hobject

end Resolve

end GoSource
